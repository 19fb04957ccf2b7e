import JackVm.Compilation.Statement
import JackVm.Proofs.Compilation.ExpressionLockstep

/-!
# Statements in step

Labels are spelled from numbers alone, and the numbers of two compilations in step are the same.
-/

namespace JackVm.Correspondence

open Compilation

variable {k : Correspondence}

theorem keepsStep_letStatement (bound : Nat) : k.KeepsStep (letStatement bound) := by
  intro s s' h
  refine agree_production ?_
  replace h := h.entered .letStatement
  refine (h.expect _).andThen fun _ h => ?_
  refine (h.expect _).andThen fun taken h => ?_
  refine (h.resolveCurrent (kind_of_expect taken)).bind fun {v _ v' _} _ same h => ?_
  subst same
  simp only [peekKind_bind]
  rw [h.peekKind]
  refine agree_ite (fun _ => ?_) fun _ => ?_
  · refine (agree_elementAddress (keepsStep_expression bound) v h).bind fun _ _ h => ?_
    refine (h.expect _).andThen fun _ h => ?_
    refine (keepsStep_expression bound h).andThen fun _ h => ?_
    simp only [currentLine_bind]
    refine (h.emitAll h.currentLine rfl).andThen fun _ h => ?_
    exact h.expect _
  · refine (h.expect _).andThen fun _ h => ?_
    refine (keepsStep_expression bound h).andThen fun _ h => ?_
    simp only [currentLine_bind]
    refine (h.emit h.currentLine rfl).andThen fun _ h => ?_
    exact h.expect _

theorem keepsStep_doStatement (bound : Nat) : k.KeepsStep (doStatement bound) := by
  intro s s' h
  refine agree_production ?_
  replace h := h.entered .doStatement
  refine (h.expect _).andThen fun _ h => ?_
  refine (h.expect _).andThen fun taken h => ?_
  simp only [currentText_bind]
  have words := words_of_identifier h.current (kind_of_expect taken)
  refine (agree_call (keepsStep_expression bound) bound words h).andThen fun _ h => ?_
  refine (h.expect _).andThen fun _ h => ?_
  simp only [currentLine_bind]
  exact h.emit h.currentLine rfl

theorem keepsStep_returnStatement (bound : Nat) : k.KeepsStep (returnStatement bound) := by
  intro s s' h
  refine agree_production ?_
  replace h := h.entered .returnStatement
  refine (h.expect _).andThen fun _ h => ?_
  simp only [peekKind_bind]
  rw [h.peekKind]
  refine agree_ite (fun _ => ?_) fun _ => ?_
  · simp only [currentLine_bind]
    refine (h.emit h.currentLine rfl).andThen fun _ h => ?_
    refine (h.expect _).andThen fun _ h => ?_
    simp only [currentLine_bind]
    exact h.emit h.currentLine rfl
  · refine (keepsStep_expression bound h).andThen fun _ h => ?_
    refine (h.expect _).andThen fun _ h => ?_
    simp only [currentLine_bind]
    exact h.emit h.currentLine rfl

section
variable {statements : Compilation Unit} (inner : k.KeepsStep statements)
include inner

theorem keepsStep_block : k.KeepsStep (block statements) := by
  intro s s' h
  refine (h.expect _).andThen fun _ h => ?_
  refine (inner h).andThen fun _ h => ?_
  exact h.expect _

theorem keepsStep_ifStatement (bound : Nat) : k.KeepsStep (ifStatement statements bound) := by
  intro s s' h
  refine agree_production ?_
  replace h := h.entered .ifStatement
  simp only [nextIfLabel_bind]
  rw [h.ifLabels]
  refine (h.begunIf.expect _).andThen fun _ h => ?_
  refine (h.expect _).andThen fun _ h => ?_
  refine (keepsStep_expression bound h).andThen fun _ h => ?_
  refine (h.expect _).andThen fun _ h => ?_
  simp only [currentLine_bind]
  refine (h.emitAll h.currentLine rfl).andThen fun _ h => ?_
  refine (keepsStep_block inner h).andThen fun _ h => ?_
  simp only [currentLine_bind, peekKind_bind]
  have lines := h.currentLine
  rw [h.peekKind]
  refine agree_ite (fun _ => ?_) fun _ => h.emit lines rfl
  refine (h.emitAll lines rfl).andThen fun _ h => ?_
  refine h.consume.andThen fun _ h => ?_
  refine (keepsStep_block inner h).andThen fun _ h => ?_
  simp only [currentLine_bind]
  exact h.emit h.currentLine rfl

theorem keepsStep_whileStatement (bound : Nat) :
    k.KeepsStep (whileStatement statements bound) := by
  intro s s' h
  refine agree_production ?_
  replace h := h.entered .whileStatement
  simp only [nextWhileLabel_bind, peekLine_bind]
  rw [h.whileLabels]
  replace h := h.begunWhile
  refine (h.emit h.peekLine rfl).andThen fun _ h => ?_
  refine (h.expect _).andThen fun _ h => ?_
  refine (h.expect _).andThen fun _ h => ?_
  refine (keepsStep_expression bound h).andThen fun _ h => ?_
  simp only [currentLine_bind]
  refine (h.emitAll h.currentLine rfl).andThen fun _ h => ?_
  refine (h.expect _).andThen fun _ h => ?_
  refine (h.expect _).andThen fun _ h => ?_
  refine (inner h).andThen fun _ h => ?_
  simp only [peekLine_bind]
  refine (h.emitAll h.peekLine rfl).andThen fun _ h => ?_
  exact h.expect _

theorem keepsStep_statement (bound : Nat) : k.KeepsStep (statement statements bound) := by
  intro s s' h
  unfold statement
  simp only [peekKind_bind]
  rw [h.peekKind]
  cases StatementForm.ofKind? s.peek.kind with
  | none => exact h.toAbreast.failAtPeek rfl
  | some form =>
    cases form with
    | «let» => exact keepsStep_letStatement bound h
    | «if» => exact keepsStep_ifStatement inner bound h
    | «while» => exact keepsStep_whileStatement inner bound h
    | «do» => exact keepsStep_doStatement bound h
    | «return» => exact keepsStep_returnStatement bound h

end

theorem keepsStep_statements (bound : Nat) : k.KeepsStep (statements bound) := by
  induction bound with
  | zero => exact fun _ _ h => h.failAtPeek rfl
  | succ bound inner =>
    intro s s' h
    refine agree_production ?_
    exact (keepsStep_statement inner bound).repeatWhile bound (h.entered .statements)

end JackVm.Correspondence

import JackVm.Compilation.Statement
import JackVm.Proofs.Compilation.ExpressionPrediction

/-!
# Prediction of statements

A statement's form shows in its first token, and no form begins with a token that can stand behind
a statement. The statements nested in a conditional or a loop are a parameter.
-/

namespace JackVm

open Compilation
open scoped Computability

def Compilation.StatementForm.texts : StatementForm → Language TokenKind
  | .let => letTexts
  | .if => ifTexts
  | .while => whileTexts
  | .do => doTexts
  | .return => returnTexts

def statementWords : List TokenKind :=
  [.keyword .let, .keyword .if, .keyword .while, .keyword .do, .keyword .return]

theorem mem_statementTexts_mul {w : List TokenKind} {L : Language TokenKind} :
    w ∈ statementTexts * L ↔ ∃ form : StatementForm, w ∈ form.texts * L := by
  rw [statementTexts_eq]
  simp only [add_mul, Language.mem_add]
  constructor
  · rintro ((((h | h) | h) | h) | h)
    · exact ⟨.let, h⟩
    · exact ⟨.if, h⟩
    · exact ⟨.while, h⟩
    · exact ⟨.do, h⟩
    · exact ⟨.return, h⟩
  · rintro ⟨form, h⟩
    cases form <;> simp_all [StatementForm.texts]

theorem Compilation.StatementForm.ofKind?_of_cons_mem {form : StatementForm} {k : TokenKind}
    {w : List TokenKind} {L : Language TokenKind} (h : k :: w ∈ form.texts * L) :
    StatementForm.ofKind? k = some form := by
  cases form <;>
    simp only [texts, letTexts, ifTexts, whileTexts, doTexts, returnTexts, mul_assoc,
      cons_mem_oneOf_mul, List.mem_singleton] at h <;> rw [h.1] <;> rfl

theorem isSome_statementForm {k : TokenKind} :
    (StatementForm.ofKind? k).isSome ↔ k ∈ statementWords := by
  constructor
  · unfold StatementForm.ofKind?
    split <;> simp [statementWords]
  · revert k
    decide

theorem startsIn_statementTexts_mul {L : Language TokenKind} :
    StartsIn statementWords (statementTexts * L) := by
  intro k w hw
  obtain ⟨form, h⟩ := mem_statementTexts_mul.mp hw
  rw [← isSome_statementForm, form.ofKind?_of_cons_mem h]
  rfl

@[simp] theorem possible_statementTexts : Possible statementTexts :=
  ⟨_, .return none, rfl⟩

@[simp] theorem possible_blockTexts : Possible blockTexts := by
  have empty : Possible (textsOf statementLexemes) := ⟨_, [], rfl⟩
  simp [blockTexts, empty]

theorem Compilation.StatementForm.possible_texts (form : StatementForm) : Possible form.texts := by
  cases form <;>
    simp [texts, letTexts, ifTexts, whileTexts, doTexts, returnTexts, assignmentTexts,
      conditionTexts]

section
variable {source : Stream' Token} {n bound : Nat} {K : Language TokenKind}

/-! ## Statements without others in them -/

theorem letStatement_reads (bounded : 2 * n ≤ bound + 1) :
    Reads source n (letTexts * K) (letStatement bound) (n - 1) K := by
  apply Reads.of_possible_right
  intro last
  rw [letTexts, assignmentTexts]
  simp only [mul_assoc, add_mul]
  apply Reads.production
  apply Reads.expect_bind (by decide)
  apply Reads.expect_bind (by decide)
  apply Reads.quiet_bind .resolveCurrent
  intro v
  apply Reads.peekKind_bind
  intro k
  split
  · next indexed =>
    subst indexed
    apply ReadsAt.left _ (by simp [last]) (by simp)
    apply ReadsAt.bind (elementAddress_reads (fun m le => expression_reads bound m (by omega)) v _)
    intro _
    apply Reads.expect_bind (by decide)
    apply Reads.bind (expression_reads bound _ (by omega) _ (startsIn_oneOf_mul (by decide)))
    intro _
    apply Reads.quiet_bind .currentLine
    intro line
    apply Reads.quiet_bind (.emitAll _ _)
    exact fun _ => .expect (by decide) (by omega)
  · next plain =>
    apply ReadsAt.right _ (by simp [last])
      (startsIn_indexTexts_mul.refuses (by simpa using plain))
    apply Reads.expect_bind (by decide)
    apply Reads.bind (expression_reads bound _ (by omega) _ (startsIn_oneOf_mul (by decide)))
    intro _
    apply Reads.quiet_bind .currentLine
    intro line
    apply Reads.quiet_bind (.emit _ _)
    exact fun _ => .expect (by decide) (by omega)

theorem doStatement_reads (bounded : 2 * n ≤ bound + 1) :
    Reads source n (doTexts * K) (doStatement bound) (n - 1) K := by
  rw [doTexts]
  simp only [mul_assoc]
  apply Reads.production
  apply Reads.expect_bind (by decide)
  apply Reads.expect_bind (by decide)
  apply Reads.quiet_bind .currentText
  intro name
  apply Reads.bind (call_reads (fun m le => expression_reads bound m (by omega)) (by omega) name)
  intro _
  apply Reads.expect_bind (by decide)
  exact .quiet (Quiet.currentLine.bind fun _ => .emit _ _) (by omega)

theorem returnStatement_reads (bounded : 2 * n ≤ bound + 1) :
    Reads source n (returnTexts * K) (returnStatement bound) (n - 1) K := by
  apply Reads.of_possible_right
  intro last
  have ending (m : Nat) (le : m ≤ n - 1) :
      Reads source m (token (.mark .semicolon) * K) (do
        expect (.mark .semicolon)
        emit .return (← currentLine)) (n - 1) K := by
    apply Reads.expect_bind (by decide)
    exact .quiet (Quiet.currentLine.bind fun _ => .emit _ _) (by omega)
  rw [returnTexts]
  simp only [mul_assoc, add_mul, one_mul]
  apply Reads.production
  apply Reads.expect_bind (by decide)
  apply Reads.peekKind_bind
  intro k
  split
  · next empty =>
    subst empty
    apply ReadsAt.left _ (by simp [last]) (startsIn_expressionTexts_mul.refuses (by decide))
    apply ReadsAt.quiet_bind .currentLine
    intro line
    apply ReadsAt.quiet_bind (.emit _ _)
    exact fun _ => ending _ le_rfl _
  · next valued =>
    apply ReadsAt.right _ (by simp [last]) (by simp [valued])
    apply ReadsAt.bind
      (expression_reads bound _ (by omega) _ (startsIn_oneOf_mul (by decide)) k)
    exact fun _ => ending _ le_rfl

/-! ## Statements with others in them -/

section
variable {nested : Compilation Unit}
  (reads : ∀ m ≤ n - 1,
    ReadsBefore source [.mark .rightBrace] m (textsOf statementLexemes) nested)
include reads

theorem block_reads {m n' : Nat} (le : m ≤ n) (le' : m - 1 ≤ n') :
    Reads source m (blockTexts * K) (block nested) n' K := by
  rw [blockTexts]
  simp only [mul_assoc]
  apply Reads.expect_bind (by decide)
  apply Reads.bind (reads _ (by omega) _ (startsIn_oneOf_mul (by decide)))
  exact fun _ => .expect (by decide) (by omega)

theorem ifStatement_reads (bounded : 2 * n ≤ bound + 1) (plain : ∀ w, .keyword .else :: w ∉ K) :
    Reads source n (ifTexts * K) (ifStatement nested bound) (n - 1) K := by
  apply Reads.of_possible_right
  intro last
  rw [ifTexts, conditionTexts]
  simp only [mul_assoc, add_mul, one_mul]
  apply Reads.production
  apply Reads.quiet_bind .nextIfLabel
  intro number
  apply Reads.expect_bind (by decide)
  apply Reads.expect_bind (by decide)
  apply Reads.bind (expression_reads bound _ (by omega) _ (startsIn_oneOf_mul (by decide)))
  intro _
  apply Reads.expect_bind (by decide)
  apply Reads.quiet_bind .currentLine
  intro line
  apply Reads.quiet_bind (.emitAll _ _)
  intro _
  apply Reads.bind (block_reads reads (by omega) le_rfl)
  intro _
  apply Reads.quiet_bind .currentLine
  intro line
  apply Reads.peekKind_bind
  intro k
  split
  · next otherwise =>
    subst otherwise
    apply ReadsAt.left _ (by simp [last]) plain
    apply ReadsAt.quiet_bind (.emitAll _ _)
    intro _
    apply ReadsAt.bind (.take (by decide) (by decide))
    intro _
    apply Reads.bind (block_reads reads (by omega) le_rfl)
    intro _
    exact .quiet (Quiet.currentLine.bind fun _ => .emit _ _) (by omega)
  · next done =>
    apply ReadsAt.right _ last (by simp [done])
    exact Reads.quiet (.emit _ _) (by omega) k

theorem whileStatement_reads (bounded : 2 * n ≤ bound + 1) :
    Reads source n (whileTexts * K) (whileStatement nested bound) (n - 1) K := by
  rw [whileTexts, conditionTexts, blockTexts]
  simp only [mul_assoc]
  apply Reads.production
  apply Reads.quiet_bind .nextWhileLabel
  intro number
  apply Reads.quiet_bind .peekLine
  intro line
  apply Reads.quiet_bind (.emit _ _)
  intro _
  apply Reads.expect_bind (by decide)
  apply Reads.expect_bind (by decide)
  apply Reads.bind (expression_reads bound _ (by omega) _ (startsIn_oneOf_mul (by decide)))
  intro _
  apply Reads.quiet_bind .currentLine
  intro line
  apply Reads.quiet_bind (.emitAll _ _)
  intro _
  apply Reads.expect_bind (by decide)
  apply Reads.expect_bind (by decide)
  apply Reads.bind (reads _ (by omega) _ (startsIn_oneOf_mul (by decide)))
  intro _
  apply Reads.quiet_bind .peekLine
  intro line
  apply Reads.quiet_bind (.emitAll _ _)
  exact fun _ => .expect (by decide) (by omega)

theorem statement_reads {k : TokenKind} (begun : k ∈ statementWords) (bounded : 2 * n ≤ bound + 1)
    (plain : ∀ w, .keyword .else :: w ∉ K) :
    ReadsAt source k n (statementTexts * K) (statement nested bound) (n - 1) K := by
  apply ReadsAt.of_possible_right
  intro last
  obtain ⟨form, found⟩ := Option.isSome_iff_exists.mp (isSome_statementForm.mpr begun)
  apply ReadsAt.peekKind_bind
  rw [found]
  have inside (w : List TokenKind) (hw : w ∈ form.texts * K) : w ∈ statementTexts * K :=
    mem_statementTexts_mul.mpr ⟨form, hw⟩
  have kept (w : List TokenKind) (hw : k :: w ∈ statementTexts * K) : k :: w ∈ form.texts * K := by
    obtain ⟨other, h⟩ := mem_statementTexts_mul.mp hw
    rw [Option.some.inj (found.symm.trans (other.ofKind?_of_cons_mem h))]
    exact h
  apply ReadsAt.narrow _ inside (possible_mul.mpr ⟨form.possible_texts, last⟩) kept
  cases form with
  | «let» => exact letStatement_reads bounded k
  | «if» => exact ifStatement_reads reads bounded plain k
  | «while» => exact whileStatement_reads reads bounded k
  | «do» => exact doStatement_reads bounded k
  | «return» => exact returnStatement_reads bounded k

end

theorem statements_reads (bound n : Nat) (bounded : 2 * n ≤ bound) :
    ReadsBefore source [.mark .rightBrace] n (textsOf statementLexemes) (statements bound) := by
  induction bound generalizing n with
  | zero =>
    intro K starts k s same awaits few
    omega
  | succ bound ih =>
    intro K starts
    apply Reads.production
    rw [statementsTexts_eq]
    have plain : StartsIn (.mark .rightBrace :: statementWords) (statementTexts∗ * K) :=
      .kstar_mul (fun _ => startsIn_statementTexts_mul.mono (by decide)) (starts.mono (by decide))
    apply Reads.iterate (by omega) le_rfl (fun _ => isSome_statementForm) (by decide)
      possible_statementTexts (fun _ => startsIn_statementTexts_mul) starts (by decide)
    intro m le k begun _
    exact statement_reads (fun l below => ih l (by omega)) begun (by omega)
      (plain.refuses (by decide))

end

end JackVm

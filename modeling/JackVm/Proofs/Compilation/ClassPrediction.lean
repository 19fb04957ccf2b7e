import JackVm.Compilation.Class
import JackVm.Proofs.Compilation.StatementPrediction

/-!
# Prediction of classes

The parts of a class are told apart by the words that they begin with. A class is read from the
beginning of its source, where any sentence is awaited, to the end of the input.
-/

namespace JackVm

open Compilation
open scoped Computability

theorem isSome_storage {k : TokenKind} :
    (VariableKind.ofClassKeyword? k).isSome ↔ k ∈ storageWords := by
  constructor
  · unfold VariableKind.ofClassKeyword?
    split <;> simp [storageWords]
  · revert k
    decide

theorem isSome_form {k : TokenKind} : (SubroutineForm.ofKind? k).isSome ↔ k ∈ formWords := by
  constructor
  · unfold SubroutineForm.ofKind?
    split <;> simp [formWords]
  · revert k
    decide

@[simp] theorem possible_groupTexts : Possible groupTexts := by
  simp [groupTexts, variableTypes]

@[simp] theorem possible_parameterTexts : Possible parameterTexts := by
  simp [parameterTexts, variableTypes]

@[simp] theorem possible_subroutineTexts : Possible subroutineTexts := by
  simp [subroutineTexts, formWords, returnTypes, parametersTexts, statementsTexts_eq]

section
variable {source : Stream' Token} {n bound : Nat} {K : Language TokenKind}

/-! ## Declarations of variables -/

theorem typeName_reads {allowed : List TokenKind} (unended : .endOfInput ∉ allowed) :
    Reads source n (oneOf allowed * K) (typeName allowed) (n - 1) K := by
  apply Reads.bind (.expectAny unended le_rfl)
  exact fun _ => .quiet .currentText le_rfl

theorem declareName_reads (type : String) (kind : VariableKind) :
    Reads source n (token .identifier * K) (declareName type kind) (n - 1) K := by
  apply Reads.expect_bind (by decide)
  exact .quiet (Quiet.currentText.bind fun _ => .declare _ _ _) le_rfl

theorem variableNames_reads (kind : VariableKind) (bounded : n ≤ bound + 1) :
    Reads source n (groupTexts * K) (variableNames kind bound) n K := by
  rw [groupTexts]
  simp only [mul_assoc]
  apply Reads.bind (typeName_reads (by decide))
  intro type
  apply Reads.bind (declareName_reads type kind)
  intro _
  apply Reads.bind (.commas (by omega) possible_oneOf (startsIn_oneOf_mul (List.Subset.refl _))
    (by decide) _ ())
  · exact fun _ => .expect (by decide) (by omega)
  · intro m le _
    exact (declareName_reads type kind).mono (Nat.sub_le ..)

theorem classVarDec_reads {k : TokenKind} (begun : k ∈ storageWords) (bounded : n ≤ bound + 1) :
    ReadsAt source k n (oneOf storageWords * groupTexts * K) (classVarDec bound) (n - 1) K := by
  obtain ⟨kind, found⟩ := Option.isSome_iff_exists.mp (isSome_storage.mpr begun)
  rw [mul_assoc]
  apply ReadsAt.production
  apply ReadsAt.peekKind_bind
  rw [found]
  apply ReadsAt.bind (.take begun (by decide))
  exact fun _ => variableNames_reads kind (by omega)

theorem varDec_reads (bounded : n ≤ bound + 1) :
    Reads source n (token (.keyword .var) * groupTexts * K) (varDec bound) (n - 1) K := by
  rw [mul_assoc]
  apply Reads.production
  apply Reads.expect_bind (by decide)
  exact variableNames_reads .local (by omega)

theorem parameter_reads : Reads source n (parameterTexts * K) parameter n K := by
  rw [parameterTexts, mul_assoc]
  apply Reads.bind (typeName_reads (by decide))
  exact fun type => (declareName_reads type .argument).mono (by omega)

theorem parameterList_reads (bounded : n ≤ bound + 1) :
    ReadsBefore source [.mark .rightParen] n parametersTexts (parameterList bound) := by
  intro K starts
  apply Reads.of_possible_right
  intro last
  rw [parametersTexts, add_mul, one_mul, mul_assoc]
  apply Reads.production
  apply Reads.peekKind_bind
  intro k
  split
  · next ended =>
    subst ended
    apply ReadsAt.left (.pure () le_rfl) last
    exact startsIn_oneOf_mul_mul.refuses (by decide)
  · next more =>
    apply ReadsAt.right _ (by simp [last]) (starts.refuses (by simpa using more))
    apply ReadsAt.bind (parameter_reads k)
    intro _
    apply Reads.commas bounded possible_parameterTexts starts (by decide)
    exact fun m le _ => parameter_reads

/-! ## Subroutines and classes -/

theorem subroutineBody_reads (name : String) (form : SubroutineForm) (bounded : 2 * n ≤ bound) :
    Reads source n (token (.mark .leftBrace) * ((token (.keyword .var) * groupTexts)∗ *
      (textsOf statementLexemes * (token (.mark .rightBrace) * K))))
      (subroutineBody name form bound) n K := by
  have starts : StartsIn (.mark .rightBrace :: statementWords)
      (textsOf statementLexemes * (token (.mark .rightBrace) * K)) := by
    rw [statementsTexts_eq]
    exact .kstar_mul (fun _ => startsIn_statementTexts_mul.mono (by decide))
      (startsIn_oneOf_mul (by decide))
  apply Reads.production
  apply Reads.expect_bind (by decide)
  apply Reads.bind (.iterate (by omega) le_rfl (by simp) (by decide) (by simp)
    (fun _ => startsIn_oneOf_mul_mul) starts (by decide) _ ())
  · intro _
    apply Reads.quiet_bind .currentLine
    intro line
    apply Reads.quiet_bind (.countOf _)
    intro locals
    apply Reads.quiet_bind (.emit _ _)
    intro _
    apply Reads.quiet_bind (.countOf _)
    intro fields
    apply Reads.quiet_bind (.emitAll _ _)
    intro _
    apply Reads.bind (statements_reads bound _ (by omega) _ (startsIn_oneOf_mul (by decide)))
    exact fun _ => .expect (by decide) (by omega)
  · exact fun m le k _ _ => varDec_reads (by omega) k

theorem subroutineDec_reads {k : TokenKind} (begun : k ∈ formWords) (bounded : 2 * n ≤ bound) :
    ReadsAt source k n (subroutineTexts * K) (subroutineDec bound) (n - 1) K := by
  obtain ⟨form, found⟩ := Option.isSome_iff_exists.mp (isSome_form.mpr begun)
  rw [subroutineTexts]
  simp only [mul_assoc]
  apply ReadsAt.production
  apply ReadsAt.quiet_bind .startSubroutine
  intro _
  apply ReadsAt.peekKind_bind
  rw [found]
  apply ReadsAt.bind (.take begun (by decide))
  intro _
  apply Reads.quiet_bind (.declareReceiver form)
  intro _
  apply Reads.bind (.expectAny (by decide) le_rfl)
  intro _
  apply Reads.expect_bind (by decide)
  apply Reads.quiet_bind .className
  intro prefixed
  apply Reads.quiet_bind .currentText
  intro name
  apply Reads.expect_bind (by decide)
  apply Reads.bind (parameterList_reads (by omega) _ (startsIn_oneOf_mul (by decide)))
  intro _
  apply Reads.expect_bind (by decide)
  exact (subroutineBody_reads _ form (by omega)).mono (by omega)

theorem classBody_reads (bounded : 2 * n ≤ bound) :
    Reads source n (token (.mark .leftBrace) * ((oneOf storageWords * groupTexts)∗ *
      (subroutineTexts∗ * (token (.mark .rightBrace) * K)))) (classBody bound) n K := by
  have ended : StartsIn [.mark .rightBrace] (token (.mark .rightBrace) * K) :=
    startsIn_oneOf_mul (List.Subset.refl _)
  have subroutine (L : Language TokenKind) : StartsIn formWords (subroutineTexts * L) :=
    startsIn_oneOf_mul_mul
  have starts : StartsIn (.mark .rightBrace :: formWords)
      (subroutineTexts∗ * (token (.mark .rightBrace) * K)) :=
    .kstar_mul (fun L => (subroutine L).mono (by decide)) (ended.mono (by decide))
  apply Reads.expect_bind (by decide)
  apply Reads.bind (.iterate (by omega) le_rfl (fun _ => isSome_storage) (by decide)
    (by simp [storageWords]) (fun _ => startsIn_oneOf_mul_mul) starts (by decide) _ ())
  · intro _
    apply Reads.bind (.iterate (by omega) le_rfl (fun _ => isSome_form) (by decide) (by simp)
      subroutine ended (by decide) _ ())
    · exact fun _ => .expect (by decide) (by omega)
    · exact fun m le k begun _ => subroutineDec_reads begun (by omega)
  · exact fun m le k begun _ => classVarDec_reads begun (by omega)

theorem Ends.depthBound_bind {f : Nat → Compilation Unit} {s : CompilerState}
    {states : CompilerState → Prop} {errors : CompileError → Prop}
    (h : Ends (f (2 * s.input.upcoming.length + 8)) s states errors) :
    Ends (depthBound >>= f) s states errors := h

theorem sentences_eq : sentences = token (.keyword .class) * (token .identifier *
    (token (.mark .leftBrace) * ((oneOf storageWords * groupTexts)∗ *
      (subroutineTexts∗ * (token (.mark .rightBrace) * token .endOfInput))))) := by
  rw [sentences, classTexts_eq, classTexts]
  simp only [mul_assoc]

/-- Where any sentence is awaited, a compilation fails with justified errors only. -/
theorem wholeClass_justified {s : CompilerState} (awaits : Awaits source s sentences) :
    Ends wholeClass s (fun _ => True) (Justified source) := by
  have few : s.ahead < s.input.upcoming.length + 2 := by
    rw [CompilerState.ahead]
    split <;> omega
  rw [sentences_eq] at awaits
  apply Ends.depthBound_bind
  apply Reads.ends (token .endOfInput) _ awaits few
  apply Reads.bind
  · apply Reads.production
    apply Reads.expect_bind (by decide)
    apply Reads.expect_bind (by decide)
    apply Reads.quiet_bind .currentText
    intro name
    apply Reads.quiet_bind (.startClass name)
    exact fun _ => classBody_reads (by omega)
  · intro _
    apply Reads.peekKind_bind
    intro k
    split
    · exact .pure () (by omega)
    · next more =>
      have last : [TokenKind.endOfInput] ∈ token .endOfInput := mem_oneOf.mpr ⟨_, by simp, rfl⟩
      apply ReadsAt.failAtPeek
      · intro w hw
        obtain ⟨k', inside, same⟩ := mem_oneOf.mp hw
        obtain ⟨rfl, -⟩ := List.cons.inj same
        exact more (List.mem_singleton.mp inside)
      · rintro _ ⟨rfl⟩ k' inside
        exact ⟨[], List.mem_singleton.mp inside ▸ last⟩
      · intro unasked
        cases unasked

end

end JackVm

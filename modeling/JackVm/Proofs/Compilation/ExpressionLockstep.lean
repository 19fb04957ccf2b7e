import JackVm.Compilation.Expression
import JackVm.Proofs.Compilation.Correspondence

/-!
# Expressions in step

The instructions that are written for an operator or a constant have no name in them that can be
renamed. Those for a call have the names that the tokens of the call spell.
-/

namespace JackVm

theorem BinaryOperator.instruction_rename (r : Renaming) (operator : BinaryOperator) :
    operator.instruction = operator.instruction.rename r := by
  cases operator with
  | multiply =>
    have library : r.dotted "Math.multiply" = "Math.multiply" :=
      r.dotted_library "Math" "multiply" (by decide) (by decide)
    exact congrArg (Instruction.call · 2) library.symm
  | divide =>
    have library : r.dotted "Math.divide" = "Math.divide" :=
      r.dotted_library "Math" "divide" (by decide) (by decide)
    exact congrArg (Instruction.call · 2) library.symm
  | _ => rfl

namespace Correspondence

open Compilation

variable {k : Correspondence} {s s' : CompilerState}

theorem keepsStep_integerConstant (digits : String) : k.KeepsStep (integerConstant digits) := by
  intro s s' h
  unfold integerConstant
  refine agree_ite (fun _ => ?_) fun _ => h.failAtCurrent rfl
  simp only [currentLine_bind]
  exact h.emit h.currentLine rfl

theorem keepsStep_stringConstant (content : String) : k.KeepsStep (stringConstant content) := by
  have made : k.names.dotted "String.new" = "String.new" :=
    k.names.dotted_library "String" "new" (by decide) (by decide)
  have extended : k.names.dotted "String.appendChar" = "String.appendChar" :=
    k.names.dotted_library "String" "appendChar" (by decide) (by decide)
  intro s s' h
  unfold stringConstant
  simp only [currentLine_bind]
  have lines := h.currentLine
  refine agree_ite (fun _ => ?_) fun _ => h.failAtCurrent rfl
  refine (h.emitAll lines ?_).andThen fun _ h => ?_
  · simp [Instruction.rename, made]
  · refine agree_forM content.toList (fun c s s' h => ?_) h
    refine agree_ite (fun _ => ?_) fun _ => h.failAtCurrent rfl
    exact h.emitAll lines (by simp [Instruction.rename, extended])

theorem agree_elementAddress {index : Compilation Unit} (inner : k.KeepsStep index)
    (base : Variable) (h : k.InStep s s') :
    k.Agree k.Lines (elementAddress index base s)
      (elementAddress index (base.rename k.names) s') := by
  unfold elementAddress
  refine (h.expect _).andThen fun _ h => ?_
  refine (inner h).andThen fun _ h => ?_
  simp only [currentLine_bind]
  have lines := h.currentLine
  refine (h.emitAll lines rfl).andThen fun _ h => ?_
  exact (h.expect _).andThen fun _ h => .ok lines h

theorem keepsStep_countArguments (count more : Nat) :
    k.KeepsStep (countArguments count more) := by
  intro s s' h
  exact agree_ite (fun _ => .ok rfl h) fun _ => h.failAtCurrent rfl

theorem keepsStep_expressionList {argument : Compilation Unit} (inner : k.KeepsStep argument)
    (bound : Nat) : k.KeepsStep (expressionList argument bound) := by
  intro s s' h
  refine agree_production ?_
  replace h := h.entered .expressionList
  simp only [peekKind_bind]
  rw [h.peekKind]
  refine agree_ite (fun _ => .ok rfl h) fun _ => ?_
  refine (inner h).andThen fun _ h => ?_
  refine agree_iterate (fun same h => ?_) bound rfl h
  subst same
  refine h.consume.andThen fun _ h => ?_
  refine (inner h).andThen fun _ h => ?_
  exact keepsStep_countArguments _ _ h

theorem keepsStep_callArguments {argument : Compilation Unit} (inner : k.KeepsStep argument)
    (bound receivers : Nat) : k.KeepsStep (callArguments argument bound receivers) := by
  intro s s' h
  refine (keepsStep_expressionList inner bound h).andThen fun _ h => ?_
  refine (keepsStep_countArguments _ _ h).andThen fun _ h => ?_
  exact (h.expect _).andThen fun _ h => .ok rfl h

/-- A call of a method of the current object, of a method of a variable, or of a function of a
class, whichever the two names and the variables in scope make of it. -/
theorem agree_call {argument : Compilation Unit} (inner : k.KeepsStep argument) (bound : Nat)
    {name name' : String} (words : k.names.Words name name') (h : k.InStep s s') :
    k.Agree Eq (call argument bound name s) (call argument bound name' s') := by
  unfold call
  simp only [currentLine_bind, peekKind_bind]
  have lines := h.currentLine
  rw [h.peekKind]
  refine agree_ite (fun _ => ?_) fun _ => ?_
  · refine h.consume.andThen fun _ h => ?_
    refine (h.emit lines rfl).andThen fun _ h => ?_
    refine (keepsStep_callArguments inner bound 1 h).andThen fun _ h => ?_
    simp only [className_bind]
    exact h.emit lines (congrArg (Instruction.call · _) (h.className.qualified words))
  · refine (h.expect _).andThen fun _ h => ?_
    refine (h.expect _).andThen fun {_ t _} taken h => ?_
    simp only [currentText_bind, lookup_bind]
    have subroutine := words_of_identifier h.current (kind_of_expect taken)
    rw [words.renamed, h.scopes.find?]
    cases known : t.scopes.find? name with
    | some v =>
      have type : k.names.Words v.type (v.rename k.names).type := ⟨rfl, h.scopes.words known⟩
      refine (h.emit lines rfl).andThen fun _ h => ?_
      refine (h.expect _).andThen fun _ h => ?_
      refine (keepsStep_callArguments inner bound 1 h).andThen fun _ h => ?_
      exact h.emit lines (congrArg (Instruction.call · _) (type.qualified subroutine))
    | none =>
      rw [← words.renamed]
      refine (h.expect _).andThen fun _ h => ?_
      refine (keepsStep_callArguments inner bound 0 h).andThen fun _ h => ?_
      exact h.emit lines (congrArg (Instruction.call · _) (words.qualified subroutine))

theorem keepsStep_applied {operand : Compilation Unit} (inner : k.KeepsStep operand)
    (operator : UnaryOperator) : k.KeepsStep (applied operator operand) := by
  intro s s' h
  refine h.consume.andThen fun _ h => ?_
  simp only [currentLine_bind]
  have lines := h.currentLine
  refine (inner h).andThen fun _ h => ?_
  exact h.emit lines (by cases operator <;> rfl)

private theorem agree_lone (code : List Instruction)
    (unnamed : code = code.map (Instruction.rename k.names)) (h : k.InStep s s') :
    k.Agree Eq ((consume >>= fun _ => currentLine >>= fun line => emitAll code line) s)
      ((consume >>= fun _ => currentLine >>= fun line => emitAll code line) s') := by
  refine h.consume.andThen fun _ h => ?_
  simp only [currentLine_bind]
  exact h.emitAll h.currentLine unnamed

private theorem keepsStep_operation {operand : Compilation Unit} (inner : k.KeepsStep operand) :
    k.KeepsStep (do
      match BinaryOperator.ofKind? (← peekKind) with
      | some operator =>
        consume
        let line ← currentLine
        operand
        emit operator.instruction line
      | none => pure ()) := by
  intro s s' h
  simp only [peekKind_bind]
  rw [h.peekKind]
  cases BinaryOperator.ofKind? s.peek.kind with
  | none => exact .ok rfl h
  | some operator =>
    refine h.consume.andThen fun _ h => ?_
    simp only [currentLine_bind]
    have lines := h.currentLine
    refine (inner h).andThen fun _ h => ?_
    exact h.emit lines (operator.instruction_rename k.names)

/-- The rest of a term whose first token is a name. -/
private def afterName (inner : Compilation Unit) (bound : Nat) (name : String) :
    Compilation Unit := do
  let next ← peekKind
  if next = .mark .leftParen ∨ next = .mark .dot then
    call inner bound name
  else
    let v ← resolveCurrent
    if next = .mark .leftBracket then
      let line ← elementAddress inner v
      emitAll [.pop .pointer 1, .push .that 0] line
    else
      emit v.push (← currentLine)

private theorem agree_afterName {inner : Compilation Unit} (index : k.KeepsStep inner)
    (bound : Nat) {name name' : String} (words : k.names.Words name name')
    (named : s.current.kind = .identifier) (h : k.InStep s s') :
    k.Agree Eq (afterName inner bound name s) (afterName inner bound name' s') := by
  unfold afterName
  simp only [peekKind_bind]
  rw [h.peekKind]
  refine agree_ite (fun _ => agree_call index bound words h) fun _ => ?_
  refine (h.resolveCurrent named).bind fun {v _ v' _} _ same h => ?_
  subst same
  refine agree_ite (fun _ => ?_) fun _ => ?_
  · exact (agree_elementAddress index v h).bind fun _ lines h => h.emitAll lines rfl
  · simp only [currentLine_bind]
    exact h.emit h.currentLine rfl

mutual

theorem keepsStep_expression : (bound : Nat) → k.KeepsStep (expression bound)
  | 0 => fun _ _ h => h.failAtPeek rfl
  | bound + 1 => by
    intro s s' h
    rw [expression]
    refine agree_production ?_
    refine (keepsStep_term bound (h.entered .expression)).andThen fun _ h => ?_
    exact (keepsStep_operation (keepsStep_term bound)).repeatWhile bound h

theorem keepsStep_term : (bound : Nat) → k.KeepsStep (term bound)
  | 0 => fun _ _ h => h.failAtPeek rfl
  | bound + 1 => by
    intro s s' h
    rw [term]
    refine agree_production ?_
    replace h := h.entered .term
    have renamed := k.lexeme_eq h.peek
    simp only [peekLexeme_bind]
    rw [renamed]
    cases next : (s.entered .term).peek.lexeme with
    | integer digits =>
      exact h.consume.andThen fun _ h => keepsStep_integerConstant digits h
    | string content =>
      exact h.consume.andThen fun _ h => keepsStep_stringConstant content h
    | keyword word =>
      cases word with
      | true => exact agree_lone [.push .constant 0, .arithmetic .not] rfl h
      | false | null => exact agree_lone [.push .constant 0] rfl h
      | this => exact agree_lone [.push .pointer 0] rfl h
      | _ => exact h.failAtPeek rfl
    | identifier name =>
      have words : k.names.Words name (k.names name) :=
        ⟨rfl, isWord_of_isIdentifier (k.isIdentifier h.peek next)⟩
      refine h.consume.andThen fun taken h => ?_
      refine agree_afterName (keepsStep_expression bound) bound words ?_ h
      rw [(compiles_of_consume taken).2, Token.kind, next]
      rfl
    | mark m =>
      cases m with
      | leftParen =>
        refine h.consume.andThen fun _ h => ?_
        refine (keepsStep_expression bound h).andThen fun _ h => ?_
        exact h.expect _
      | minus => exact keepsStep_applied (keepsStep_term bound) .negate h
      | tilde => exact keepsStep_applied (keepsStep_term bound) .complement h
      | _ => exact h.failAtPeek rfl
    | fault f => exact h.failAtPeek rfl
    | endOfInput => exact h.failAtPeek rfl

end

end Correspondence

end JackVm

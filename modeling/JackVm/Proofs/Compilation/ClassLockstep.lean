import JackVm.Compilation.Class
import JackVm.Proofs.Compilation.StatementLockstep

/-!
# Classes in step

A class can be compiled in step from any two states that are abreast. It takes a token before it
looks at the one taken last.
-/

namespace JackVm.Correspondence

open Compilation

variable {k : Correspondence} {s s' : CompilerState}

private theorem words_of_type {t t' : Token} (pair : k.Pairs t t') (type : t.kind ∈ returnTypes) :
    k.names.Words t.text t'.text := by
  cases kind : t.kind with
  | keyword word => exact words_of_keyword pair kind
  | identifier => exact words_of_identifier pair kind
  | _ =>
    rw [kind] at type
    simp [returnTypes, variableTypes] at type

theorem agree_typeName (h : k.InStep s s') :
    k.Agree k.names.Words (typeName variableTypes s) (typeName variableTypes s') := by
  refine (h.expectAny variableTypes).andThen fun taken h => ?_
  obtain ⟨allowed, -, rfl⟩ := expectAny_eq_ok.mp taken
  exact .ok (words_of_type h.current (List.mem_cons_of_mem _ allowed)) h

theorem agree_declareName {type type' : String} (types : k.names.Words type type')
    (kind : VariableKind) (h : k.InStep s s') :
    k.Agree Eq (declareName type kind s) (declareName type' kind s') := by
  refine (h.expect _).andThen fun taken h => ?_
  simp only [currentText_bind]
  have words := words_of_identifier h.current (kind_of_expect taken)
  exact h.declare kind words.renamed types

theorem keepsStep_variableNames (kind : VariableKind) (bound : Nat) :
    k.KeepsStep (variableNames kind bound) := by
  intro s s' h
  refine (agree_typeName h).bind fun _ types h => ?_
  refine (agree_declareName types kind h).andThen fun _ h => ?_
  refine (agree_iterate (fun _ h => ?_) bound rfl h).andThen fun _ h => h.expect _
  exact h.consume.andThen fun _ h => agree_declareName types kind h

theorem keepsStep_classVarDec (bound : Nat) : k.KeepsStep (classVarDec bound) := by
  intro s s' h
  refine agree_production ?_
  replace h := h.entered .classVarDec
  simp only [peekKind_bind]
  rw [h.peekKind]
  cases VariableKind.ofClassKeyword? (s.entered .classVarDec).peek.kind with
  | none => exact h.failAtPeek rfl
  | some kind => exact h.consume.andThen fun _ h => keepsStep_variableNames kind bound h

theorem keepsStep_varDec (bound : Nat) : k.KeepsStep (varDec bound) := by
  intro s s' h
  refine agree_production ?_
  refine ((h.entered .varDec).expect _).andThen fun _ h => ?_
  exact keepsStep_variableNames .local bound h

theorem keepsStep_parameter : k.KeepsStep parameter :=
  fun _ _ h => (agree_typeName h).bind fun _ types h => agree_declareName types .argument h

theorem keepsStep_parameterList (bound : Nat) : k.KeepsStep (parameterList bound) := by
  intro s s' h
  refine agree_production ?_
  replace h := h.entered .parameterList
  simp only [peekKind_bind]
  rw [h.peekKind]
  refine agree_ite (fun _ => .ok rfl h) fun _ => ?_
  refine (keepsStep_parameter h).andThen fun _ h => ?_
  refine KeepsStep.repeatWhile (fun _ _ h => ?_) bound h
  exact h.consume.andThen fun _ h => keepsStep_parameter h

private theorem prologue_rename (r : Renaming) (fields : Nat) (form : SubroutineForm) :
    SubroutineForm.prologue fields form =
      (SubroutineForm.prologue fields form).map (Instruction.rename r) := by
  have library : r.dotted "Memory.alloc" = "Memory.alloc" :=
    r.dotted_library "Memory" "alloc" (by decide) (by decide)
  cases form <;> simp [SubroutineForm.prologue, Instruction.rename, library]

theorem agree_subroutineBody {name name' : String} (renamed : name' = k.names.dotted name)
    (form : SubroutineForm) (bound : Nat) (h : k.InStep s s') :
    k.Agree Eq (subroutineBody name form bound s) (subroutineBody name' form bound s') := by
  refine agree_production ?_
  refine ((h.entered .subroutineBody).expect _).andThen fun _ h => ?_
  refine ((keepsStep_varDec bound).repeatWhile bound h).andThen fun _ h => ?_
  simp only [currentLine_bind, countOf_bind]
  have lines := h.currentLine
  rw [h.scopes.count]
  refine (h.emit lines (congrArg (Instruction.function · _) renamed)).andThen fun _ h => ?_
  simp only [countOf_bind]
  rw [h.scopes.count]
  refine (h.emitAll lines (prologue_rename ..)).andThen fun _ h => ?_
  refine (keepsStep_statements bound h).andThen fun _ h => ?_
  exact h.expect _

theorem keepsStep_startSubroutine : k.KeepsStep startSubroutine := fun _ _ h =>
  .ok rfl ⟨⟨h.peek, h.input, h.className, h.scopes.startSubroutine, h.code, rfl, rfl⟩, h.current⟩

theorem keepsStep_declareReceiver (form : SubroutineForm) :
    k.KeepsStep (declareReceiver form) := by
  intro s s' h
  cases form with
  | method =>
    simp only [declareReceiver, className_bind]
    exact h.declare .argument (k.names.apply_keyword .this).symm h.className
  | constructor | function => exact .ok rfl h

theorem keepsStep_subroutineDec (bound : Nat) : k.KeepsStep (subroutineDec bound) := by
  intro s s' h
  refine agree_production ?_
  refine (keepsStep_startSubroutine (h.entered .subroutineDec)).andThen fun {_ t _} _ h => ?_
  simp only [peekKind_bind]
  rw [h.peekKind]
  cases SubroutineForm.ofKind? t.peek.kind with
  | none => exact h.failAtPeek rfl
  | some form =>
    refine h.consume.andThen fun _ h => ?_
    refine (keepsStep_declareReceiver form h).andThen fun _ h => ?_
    refine (h.expectAny _).andThen fun _ h => ?_
    refine (h.expect _).andThen fun taken h => ?_
    simp only [className_bind, currentText_bind]
    have words := words_of_identifier h.current (kind_of_expect taken)
    have name := h.className.qualified words
    refine (h.expect _).andThen fun _ h => ?_
    refine (keepsStep_parameterList bound h).andThen fun _ h => ?_
    refine (h.expect _).andThen fun _ h => ?_
    exact agree_subroutineBody name form bound h

theorem agree_startClass {name name' : String} (words : k.names.Words name name')
    (h : k.InStep s s') : k.Agree Eq (startClass name s) (startClass name' s') :=
  .ok rfl ⟨⟨h.peek, h.input, words, .startClass s.scopes s'.scopes, h.code, h.ifLabels,
    h.whileLabels⟩, h.current⟩

theorem keepsStep_classBody (bound : Nat) : k.KeepsStep (classBody bound) := by
  intro s s' h
  refine (h.expect _).andThen fun _ h => ?_
  refine ((keepsStep_classVarDec bound).repeatWhile bound h).andThen fun _ h => ?_
  refine ((keepsStep_subroutineDec bound).repeatWhile bound h).andThen fun _ h => ?_
  exact h.expect _

/-- The bound on the depth is the same, since as many tokens lie ahead. -/
theorem Abreast.wholeClass (h : k.Abreast s s') :
    k.Agree Eq (Compilation.wholeClass s) (Compilation.wholeClass s') := by
  have depth : depthBound s = .ok (2 * s.input.upcoming.length + 8) s := rfl
  have depth' : depthBound s' = .ok (2 * s.input.upcoming.length + 8) s' := by
    rw [h.input.upcoming.length_eq]
    rfl
  unfold Compilation.wholeClass
  rw [bind_ok depth, bind_ok depth']
  refine Agree.andThen (agree_production ?_) fun _ h => ?_
  · -- The states need be in step only from the first token on.
    refine ((h.entered .class).expect _).andThen fun _ h => ?_
    refine (h.expect _).andThen fun taken h => ?_
    simp only [currentText_bind]
    have words := words_of_identifier h.current (kind_of_expect taken)
    refine (agree_startClass words h).andThen fun _ h => ?_
    exact keepsStep_classBody _ h
  · simp only [peekKind_bind]
    rw [h.peekKind]
    exact agree_ite (fun _ => .ok rfl h) fun _ => h.failAtPeek rfl

end JackVm.Correspondence

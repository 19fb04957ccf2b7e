import JackVm.Proofs.Compilation.Declarations
import JackVm.Proofs.Compilation.StatementSound

/-!
# Compiled classes have a tree

A subroutine starts with no names and no labels of its own, whatever came before it. The class it
belongs to enters only through its name and its variables.
-/

namespace JackVm

theorem VariableGroup.countP_declarations (g : VariableGroup) (kind other : VariableKind) :
    (g.declarations kind).countP (·.kind = other) = if kind = other then g.names.length else 0 := by
  unfold declarations
  rw [List.countP_map]
  by_cases h : kind = other
  · simp [h, Function.comp_def]
  · simp [h, Function.comp_def]

theorem countP_locals (groups : List VariableGroup) :
    (groups.flatMap fun g => g.declarations .local).countP (·.kind = .local) =
      (groups.flatMap VariableGroup.names).length := by
  induction groups with
  | nil => rfl
  | cons g groups ih => simp [g.countP_declarations, ih]

theorem SubroutineDec.countP_declarations (d : SubroutineDec) (className : String) :
    (d.declarations className).countP (·.kind = .local) = d.localCount := by
  have parameters : (d.parameters.map Parameter.declaration).countP (·.kind = .local) = 0 := by
    simp [List.countP_map, Function.comp_def, Parameter.declaration]
  rw [declarations, named, List.countP_append, List.countP_append, parameters, countP_locals]
  cases d.form <;> simp [SubroutineForm.receiver, localCount]

theorem countP_storage (decs : List ClassVarDec) (storage : Storage) :
    (decs.flatMap ClassVarDec.declarations).countP (·.kind = storage.kind) =
      ((decs.filter (·.storage = storage)).flatMap fun d => d.group.names).length := by
  induction decs with
  | nil => rfl
  | cons d decs ih =>
    rw [List.flatMap_cons, List.countP_append, ih, ClassVarDec.declarations,
      d.group.countP_declarations, List.filter_cons]
    cases d.storage <;> cases storage <;> simp [Storage.kind]

theorem ClassDec.countP_declarations (c : ClassDec) :
    c.declarations.countP (·.kind = .field) = c.fieldCount :=
  countP_storage c.varDecs .field

def CompilerState.restarted (s : CompilerState) : CompilerState :=
  { s with ifLabels := 0, whileLabels := 0, scopes := s.scopes.startSubroutine }

/-- A state between the subroutines of the class `c`. -/
structure InClass (c : ClassDec) (s : CompilerState) : Prop where
  className : s.className = c.name
  outer : s.scopes.classScope.Represents c.declarations

/-- A state in a subroutine of the class `c` that has declared `inner` and has no labels yet. -/
structure InSubroutine (c : ClassDec) (inner : List Declaration) (s : CompilerState) : Prop
    extends InClass c s where
  represents : s.scopes.subroutineScope.Represents inner
  admissible : Admissible inner
  ifLabels : s.ifLabels = 0
  whileLabels : s.whileLabels = 0

section
variable {c : ClassDec} {inner ds : List Declaration} {s t : CompilerState} {o : Output}

theorem InClass.restarted (h : InClass c s) : InSubroutine c [] s.restarted where
  className := h.className
  outer := h.outer
  represents := Scope.represents_empty
  admissible := admissible_nil
  ifLabels := rfl
  whileLabels := rfl

theorem InClass.of_compiles (h : InClass c s) (p : Compiles s o t) : InClass c t where
  className := p.className.trans h.className
  outer := p.scopes ▸ h.outer

theorem InClass.left (h : InClass c s) : InClass c s.left :=
  ⟨h.className, h.outer⟩

theorem InSubroutine.declares (h : InSubroutine c inner s) (p : Declares s o false ds t) :
    InSubroutine c (inner ++ ds) t where
  className := p.className.trans h.className
  outer := by
    have other : t.scopes.classScope = s.scopes.classScope := p.other
    rw [other]
    exact h.outer
  represents := (p.declares h.represents h.admissible).1
  admissible := (p.declares h.represents h.admissible).2
  ifLabels := p.ifLabels.trans h.ifLabels
  whileLabels := p.whileLabels.trans h.whileLabels

theorem InSubroutine.entered (h : InSubroutine c inner s) (p : Production) :
    InSubroutine c inner (s.entered p) :=
  ⟨⟨h.className, h.outer⟩, h.represents, h.admissible, h.ifLabels, h.whileLabels⟩

theorem InSubroutine.environment {d : SubroutineDec}
    (h : InSubroutine c (d.declarations c.name) s) : s.environment = d.environment c := by
  rw [CompilerState.environment, h.className, SubroutineDec.environment]
  exact Environment.of_represents _ h.outer h.represents

theorem InSubroutine.count_local {d : SubroutineDec}
    (h : InSubroutine c (d.declarations c.name) s) : s.scopes.count .local = d.localCount :=
  (h.represents.count .local).trans (d.countP_declarations _)

theorem InSubroutine.count_field (h : InSubroutine c inner s) :
    s.scopes.count .field = c.fieldCount :=
  (h.outer.count .field).trans c.countP_declarations

theorem Progress.of_restarted (h : Progress s.restarted o t) : Progress s o t :=
  ⟨h.takes, h.window, h.instructions, h.lines, h.trace⟩

end

namespace Compilation

open Output

variable {s t : CompilerState} {bound : Nat} {c : ClassDec}

theorem startSubroutine_bind {α : Type} (u : Unit → Compilation α) :
    (startSubroutine >>= u) s = u () s.restarted := rfl

theorem locals_declares {u v : Unit}
    (h : Loops (· = .keyword .var) (fun _ => varDec bound) u s v t) :
    ∃ groups : List VariableGroup, Declares s (join (groups.map VariableGroup.localOutput)) false
      (groups.flatMap fun g => g.declarations .local) t := by
  apply h.declares
  intro s t _ run
  exact varDec_declares run

theorem receiver_declares {form : SubroutineForm} (h : declareReceiver form s = .ok () t) :
    Declares s {} false (form.receiver s.className) t := by
  cases form with
  | method => exact declares_of_declare h
  | constructor | function =>
    obtain ⟨-, rfl⟩ := pure_eq_ok.mp h
    exact Declares.refl s false

theorem statements_of_body {d : SubroutineDec} (ready : InSubroutine c (d.declarations c.name) s)
    (h : (do
      let line ← currentLine
      emit (.function (c.name ++ "." ++ d.name) (← countOf .local)) line
      emitAll (SubroutineForm.prologue (← countOf .field) d.form) line
      statements bound
      expect (.mark .rightBrace) : Compilation Unit) s = .ok () t) :
    ∃ body : List Statement, (∀ u ∈ statementUses body, u.Permitted (d.environment c)) ∧
      Compiles s (wrote [.function (c.name ++ "." ++ d.name) d.localCount] ++
        wrote (SubroutineForm.prologue c.fieldCount d.form) ++
        within .statements (statementOutput (d.environment c) 0 0 body) ++
        took (.mark .rightBrace)) t := by
  simp only [currentLine_bind, countOf_bind, emit_bind, emitAll_bind, bind_eq_ok] at h
  obtain ⟨_, r, run, ended⟩ := h
  have fields : (s.emitted [.function (c.name ++ "." ++ d.name) (s.scopes.count .local)]
    (s.lineAt 0)).scopes.count .field = c.fieldCount := ready.count_field
  rw [fields, ready.count_local] at run
  have p : Compiles s (wrote [.function (c.name ++ "." ++ d.name) d.localCount] ++
      wrote (SubroutineForm.prologue c.fieldCount d.form))
      ((s.emitted [.function (c.name ++ "." ++ d.name) d.localCount] (s.lineAt 0)).emitted
        (SubroutineForm.prologue c.fieldCount d.form) (s.lineAt 0)) :=
    (Compiles.wrote s _ 0).trans (.wrote _ _ 0)
  obtain ⟨body, permitted, q⟩ := statements_yields bound _ _ run
  rw [p.environment, ready.environment] at permitted
  rw [p.environment, ready.environment, p.ifLabels, p.whileLabels, ready.ifLabels,
    ready.whileLabels] at q
  exact ⟨body, permitted, (p.trans q).trans (compiles_of_mark ended)⟩

theorem subroutineBody_yields (result : Option TypeName) {form : SubroutineForm} {name : String}
    {parameters : List Parameter} (ready : InSubroutine c
      (form.receiver c.name ++ parameters.map Parameter.declaration) s)
    (h : subroutineBody (c.name ++ "." ++ name) form bound s = .ok () t) :
    ∃ (groups : List VariableGroup) (body : List Statement),
      SubroutineDec.Valid ⟨form, result, name, parameters, groups, body⟩ c ∧
      Progress s (SubroutineDec.bodyOutput ⟨form, result, name, parameters, groups, body⟩ c) t ∧
      InClass c t := by
  rw [subroutineBody, production_eq_ok] at h
  obtain ⟨r, run, rfl⟩ := h
  obtain ⟨_, r₁, opened, run⟩ := bind_eq_ok.mp run
  obtain ⟨_, r₂, declared, run⟩ := bind_eq_ok.mp run
  obtain ⟨groups, p⟩ := locals_declares (loops_of_iterate declared)
  have q := (compiles_of_mark opened).thenDeclares p
  have inside := (ready.entered .subroutineBody).declares q
  rw [List.append_assoc] at inside
  obtain ⟨body, permitted, q'⟩ :=
    statements_of_body (d := ⟨form, result, name, parameters, groups, []⟩) inside run
  refine ⟨groups, body, ⟨inside.admissible, permitted⟩, ?_, (inside.toInClass.of_compiles q').left⟩
  have all := (q.toProgress.trans q'.toProgress).within
  simp only [SubroutineDec.bodyOutput, Output.append_assoc] at all ⊢
  exact all

theorem subroutineDec_yields (inClass : InClass c s)
    (starts : (SubroutineForm.ofKind? s.peek.kind).isSome)
    (h : subroutineDec bound s = .ok () t) :
    ∃ d : SubroutineDec, d.Valid c ∧ Progress s (d.output c) t ∧ InClass c t := by
  obtain ⟨form, starts⟩ := Option.isSome_iff_exists.mp starts
  rw [subroutineDec, production_eq_ok] at h
  obtain ⟨r, run, rfl⟩ := h
  rw [startSubroutine_bind, peekKind_bind] at run
  have kind : SubroutineForm.ofKind? (s.entered .subroutineDec).restarted.peek.kind = some form :=
    starts
  simp only [kind, bind_eq_ok, className_bind, currentText_bind] at run
  obtain ⟨_, r₁, taken, _, r₂, received, _, r₃, typed, _, r₄, named, _, r₅, opened, _, r₆, listed,
    _, r₇, closed, run⟩ := run
  obtain ⟨p₁, -⟩ := compiles_of_consume taken
  have lexeme : (s.entered .subroutineDec).restarted.peek.lexeme = .keyword form.keyword :=
    form_of_keyword starts
  rw [lexeme] at p₁
  have p₂ := p₁.thenDeclares (receiver_declares received)
  rw [p₁.className] at p₂
  obtain ⟨allowed, readable, rfl⟩ := expectAny_eq_ok.mp typed
  obtain ⟨result, lexeme'⟩ := lexeme_of_returnTypes allowed
  have p₃ := p₂.then (.taken lexeme' readable)
  obtain ⟨name, p₄, text⟩ := compiles_of_identifier named
  have head := p₃.then p₄
  have p₅ := head.then (compiles_of_mark opened)
  obtain ⟨parameters, p₆⟩ := parameterList_declares listed
  have p₇ := (p₅.trans p₆).then (compiles_of_mark closed)
  have inside := (inClass.restarted.entered .subroutineDec).declares p₇
  have className : (s.entered .subroutineDec).restarted.className = c.name := inClass.className
  rw [className, List.nil_append] at inside
  rw [head.className, className, text] at run
  obtain ⟨groups, body, valid, q, done⟩ := subroutineBody_yields result inside run
  rw [Output.append_empty] at p₇
  refine ⟨⟨form, result, name, parameters, groups, body⟩, valid, ?_, done.left⟩
  exact (p₇.toProgress.trans q).of_restarted.within

theorem subroutines_yields {u v : Unit} (inClass : InClass c s)
    (h : Loops (fun kind => (SubroutineForm.ofKind? kind).isSome)
      (fun _ => subroutineDec bound) u s v t) :
    ∃ ds : List SubroutineDec, (∀ d ∈ ds, d.Valid c) ∧
      Progress s (join (ds.map fun d => d.output c)) t ∧ InClass c t := by
  induction h with
  | stop _ s => exact ⟨[], by simp, .refl s, inClass⟩
  | step again run _ ih =>
    obtain ⟨d, valid, p, between⟩ := subroutineDec_yields inClass again run
    obtain ⟨ds, valid', p', done⟩ := ih between
    exact ⟨d :: ds, List.forall_mem_cons.mpr ⟨valid, valid'⟩, p.trans p', done⟩

theorem classVarDecs_declares {u v : Unit}
    (h : Loops (fun kind => (VariableKind.ofClassKeyword? kind).isSome)
      (fun _ => classVarDec bound) u s v t) :
    ∃ decs : List ClassVarDec, Declares s (join (decs.map ClassVarDec.output)) true
      (decs.flatMap ClassVarDec.declarations) t := by
  apply h.declares
  intro s t again run
  exact classVarDec_declares again run

theorem classBody_yields {name : String} (className : s.className = name)
    (empty : s.scopes.classScope.Represents []) (h : classBody bound s = .ok () t) :
    ∃ (decs : List ClassVarDec) (ds : List SubroutineDec), ClassDec.Valid ⟨name, decs, ds⟩ ∧
      Progress s (took (.mark .leftBrace) ++ join (decs.map ClassVarDec.output) ++
        join (ds.map fun d => d.output ⟨name, decs, ds⟩) ++ took (.mark .rightBrace)) t := by
  simp only [classBody, bind_eq_ok] at h
  obtain ⟨_, r₁, opened, _, r₂, declared, _, r₃, compiled, closed⟩ := h
  obtain ⟨decs, p⟩ := classVarDecs_declares (loops_of_iterate declared)
  have q := (compiles_of_mark opened).thenDeclares p
  obtain ⟨outer, admissible⟩ := q.declares empty admissible_nil
  rw [List.nil_append] at outer admissible
  have inClass : InClass ⟨name, decs, []⟩ r₂ := ⟨q.className.trans className, outer⟩
  obtain ⟨ds, valid, p', -⟩ := subroutines_yields inClass (loops_of_iterate compiled)
  refine ⟨decs, ds, ⟨admissible, fun d hd => ?_⟩, ?_⟩
  · exact ⟨(valid d hd).admissible, (valid d hd).permitted⟩
  · exact (q.toProgress.trans p').trans (compiles_of_mark closed).toProgress

/-- A compiled class is that of a valid tree, and nothing is left behind it. -/
theorem wholeClass_yields (h : wholeClass s = .ok () t) :
    ∃ c : ClassDec, c.Valid ∧ Progress s c.output t ∧ t.peek.kind = .endOfInput := by
  obtain ⟨bound, _, depth, h⟩ := bind_eq_ok.mp h
  cases depth
  obtain ⟨_, r, ran, h⟩ := bind_eq_ok.mp h
  rw [peekKind_bind] at h
  split at h
  · next ended =>
    obtain ⟨-, rfl⟩ := pure_eq_ok.mp h
    obtain ⟨r, run, rfl⟩ := production_eq_ok.mp ran
    simp only [bind_eq_ok, currentText_bind] at run
    obtain ⟨_, r₁, keyword, _, r₂, named, _, r₃, started, body⟩ := run
    cases started
    obtain ⟨name, p, text⟩ := compiles_of_identifier named
    rw [text] at body
    obtain ⟨decs, ds, valid, q⟩ := classBody_yields rfl Scope.represents_empty body
    have head := (compiles_of_keyword keyword).trans p
    have started : Progress (s.entered .class) (took (.keyword .class) ++ took (.identifier name))
        { r₂ with className := name, scopes := r₂.scopes.startClass } :=
      ⟨head.takes, head.window, head.instructions, head.lines, head.trace⟩
    have all := (started.trans q).within
    refine ⟨⟨name, decs, ds⟩, valid, ?_, ended⟩
    simp only [ClassDec.output, Output.append_assoc] at all ⊢
    exact all
  · cases h

end Compilation

end JackVm

import JackVm.Proofs.Compilation.ClassSound
import JackVm.Proofs.Compilation.StatementComplete
import JackVm.Proofs.Syntax.Terminals

/-!
# Trees of classes compile

Declarations succeed as long as the list of all declarations of their scope is admissible.
-/

namespace JackVm

/-- Whether a scope has some declarations and there is room in it for others. -/
structure Room (scope : Scope) (before ds : List Declaration) : Prop where
  represents : scope.Represents before
  fits : Admissible (before ++ ds)

section
variable {s t : CompilerState} {o : Output} {classLevel : Bool} {before ds es : List Declaration}

theorem Room.of_append {scope : Scope} (h : Room scope before (ds ++ es)) :
    Room scope before ds := by
  refine ⟨h.represents, ?_⟩
  have fits := h.fits
  rw [← List.append_assoc] at fits
  exact fits.of_append

theorem Declares.room (p : Declares s o classLevel ds t)
    (h : Room (s.scopes.level classLevel) before (ds ++ es)) :
    Room (t.scopes.level classLevel) (before ++ ds) es := by
  have fits := h.fits
  rw [← List.append_assoc] at fits
  exact ⟨(p.declares h.represents fits.of_append.of_append).1, fits⟩

end

theorem length_le_flatMap {τ : Type} {f : τ → List Lexeme} (pos : ∀ x, 0 < (f x).length)
    (xs : List τ) : xs.length ≤ (xs.flatMap f).length := by
  induction xs with
  | nil => exact Nat.le_refl _
  | cons x xs ih =>
    have one := pos x
    simp only [List.flatMap_cons, List.length_cons, List.length_append]
    omega

theorem length_le_of_mem {τ : Type} (f : τ → List Lexeme) {x : τ} {xs : List τ} (h : x ∈ xs) :
    (f x).length ≤ (xs.flatMap f).length := by
  rw [List.flatMap_def]
  exact (List.sublist_flatten_of_mem (List.mem_map_of_mem h)).length_le

theorem VariableGroup.length_rest_le (g : VariableGroup) : g.rest.length ≤ g.lexemes.length := by
  have names := length_le_flatMap (f := fun name : String => [Lexeme.mark .comma, .identifier name])
    (fun _ => Nat.succ_pos _) g.rest
  simp only [VariableGroup.lexemes, furtherNames, List.length_cons, List.length_append]
  omega

namespace Compilation

open Output

variable {s t : CompilerState} {bound : Nat} {rest : List Lexeme}
  {before more : List Declaration}

/-- A loop goes through as many declarations as lie ahead, if each round goes through its own. -/
theorem repeatWhile_declares {τ : Type} {p : TokenKind → Bool} {body : Compilation Unit}
    {classLevel : Bool} {lexemes : τ → List Lexeme} {output : τ → Output}
    {declarations : τ → List Declaration} {xs : List τ}
    (round : ∀ x ∈ xs, ∀ s rest before, Takes s.window (lexemes x ++ rest) →
      Room (s.scopes.level classLevel) before (declarations x) → p s.peek.kind ∧
      ∃ t, body s = .ok () t ∧ Declares s (output x) classLevel (declarations x) t)
    (same : ∀ x, (output x).lexemes = lexemes x) (enough : xs.length ≤ bound)
    (takes : Takes s.window (xs.flatMap lexemes ++ rest))
    (stops : Stops (fun l => p l.kind) rest)
    (room : Room (s.scopes.level classLevel) before (xs.flatMap declarations)) :
    ∃ t, repeatWhile p body bound s = .ok () t ∧
      Declares s (join (xs.map output)) classLevel (xs.flatMap declarations) t := by
  unfold repeatWhile
  induction xs generalizing s bound before with
  | nil => exact ⟨s, iterate_stop () (takes.stops stops), Declares.refl s _⟩
  | cons x xs ih =>
    cases bound with
    | zero => simp at enough
    | succ bound =>
      rw [List.flatMap_cons, List.append_assoc] at takes
      rw [List.flatMap_cons] at room
      obtain ⟨again, r, run, first⟩ := round x (List.mem_cons_self ..) s _ before takes
        room.of_append
      have behind : Takes r.window (xs.flatMap lexemes ++ rest) := by
        apply first.takes_rest
        rw [same]
        exact takes
      obtain ⟨t, run', more⟩ := ih (fun y hy => round y (List.mem_cons_of_mem _ hy))
        (Nat.le_of_succ_le_succ enough) behind (first.room room)
      refine ⟨t, ?_, first.trans more⟩
      rw [iterate_step (b := ()) again run]
      exact run'

/-! ## Names of one type -/

theorem furtherNames_ok (bound : Nat) {type : String} {kind : VariableKind} {names : List String}
    (enough : names.length ≤ bound)
    (takes : Takes s.window (furtherNames names ++ .mark .semicolon :: rest))
    (room : Room (s.scopes.level kind.isClassLevel) before
      (names.map fun name => ⟨name, type, kind⟩)) :
    ∃ t, repeatWhile (· = .mark .comma) (do consume; declareName type kind) bound s = .ok () t ∧
      Declares s (join (names.map furtherNameOutput)) kind.isClassLevel
        (names.map fun name => ⟨name, type, kind⟩) t := by
  simp only [List.map_eq_flatMap (f := fun name => Declaration.mk name type kind)] at room ⊢
  apply repeatWhile_declares _ (fun _ => rfl) enough takes (stops_cons.mpr rfl) room
  intro name _ s rest before takes room
  have takes : Takes s.window (.mark .comma :: .identifier name :: rest) := takes
  obtain ⟨t, run, q⟩ := declareName_ok kind takes.taken room.represents room.fits
  exact ⟨decide_eq_true takes.kind_eq_mark, t, (bind_ok (consume_ok takes) _).trans run,
    (takes.compiles.declares kind.isClassLevel).trans q⟩

theorem variableNames_ok (kind : VariableKind) {g : VariableGroup}
    (enough : g.rest.length ≤ bound) (takes : Takes s.window (g.lexemes ++ rest))
    (room : Room (s.scopes.level kind.isClassLevel) before (g.declarations kind)) :
    ∃ t, variableNames kind bound s = .ok () t ∧
      Declares s g.output kind.isClassLevel (g.declarations kind) t := by
  obtain ⟨type, first, names⟩ := g
  simp only [VariableGroup.lexemes, List.cons_append, List.append_assoc, List.nil_append] at takes
  have p := takes.compiles.declares kind.isClassLevel
  have room : Room (s.scopes.level kind.isClassLevel) before
    ([⟨first, type.text, kind⟩] ++ names.map fun name => ⟨name, type.text, kind⟩) := room
  obtain ⟨r₁, run₁, q₁⟩ := declareName_ok kind takes.taken room.represents room.of_append.fits
  have p₁ := p.trans q₁
  have behind : Takes r₁.window (furtherNames names ++ .mark .semicolon :: rest) :=
    p₁.takes_rest _ takes
  obtain ⟨r₂, run₂, q₂⟩ := furtherNames_ok bound enough behind (p₁.room room)
  have p₂ := p₁.trans q₂
  have ending := q₂.takes_rest (.mark .semicolon :: rest)
    (by simpa [furtherNames, furtherNameOutput, List.flatMap_map] using behind)
  refine ⟨r₂.taken, ?_, p₂.then ending.compiles⟩
  rw [variableNames, bind_ok (typeName_ok takes), bind_ok run₁, bind_ok run₂]
  exact expect_ok (.mark .semicolon) ending rfl

theorem classVarDec_ok (bound : Nat) {d : ClassVarDec} (enough : d.group.rest.length ≤ bound)
    (takes : Takes s.window (d.lexemes ++ rest))
    (room : Room s.scopes.classScope before d.declarations) :
    ∃ t, classVarDec bound s = .ok () t ∧ Declares s d.output true d.declarations t := by
  obtain ⟨storage, g⟩ := d
  have takes : Takes (s.entered .classVarDec).window
    (.keyword storage.keyword :: (g.lexemes ++ rest)) := takes
  have ahead : VariableKind.ofClassKeyword? (s.entered .classVarDec).peek.kind =
      some storage.kind := by
    rw [takes.kind_eq]
    cases storage <;> rfl
  have level : storage.kind.isClassLevel = true := by cases storage <;> rfl
  have p := takes.compiles.declares true
  obtain ⟨t, run, q⟩ := variableNames_ok storage.kind enough takes.taken
    (show Room ((s.entered .classVarDec).taken.scopes.level storage.kind.isClassLevel) before _ by
      rw [level]
      exact room)
  rw [level] at q
  refine ⟨t.left, production_eq_ok.mpr ⟨t, ?_, rfl⟩, (p.trans q).within⟩
  rw [peekKind_bind, ahead]
  exact (bind_ok (consume_ok takes) _).trans run

theorem varDec_ok (bound : Nat) {g : VariableGroup} (enough : g.rest.length ≤ bound)
    (takes : Takes s.window (g.varDec ++ rest))
    (room : Room s.scopes.subroutineScope before (g.declarations .local)) :
    ∃ t, varDec bound s = .ok () t ∧ Declares s g.localOutput false (g.declarations .local) t := by
  have takes : Takes (s.entered .varDec).window (.keyword .var :: (g.lexemes ++ rest)) := takes
  obtain ⟨t, run, q⟩ := variableNames_ok .local enough takes.taken room
  refine ⟨t.left, production_eq_ok.mpr ⟨t, ?_, rfl⟩,
    ((takes.compiles.declares false).trans q).within⟩
  exact (bind_ok (expect_ok (.keyword .var) takes rfl) _).trans run

theorem varDecs_ok (bound : Nat) {groups : List VariableGroup}
    (enough : (groups.flatMap VariableGroup.varDec).length ≤ bound) (rounds : Nat)
    (often : groups.length ≤ rounds)
    (takes : Takes s.window (groups.flatMap VariableGroup.varDec ++ rest))
    (stops : Stops (· = .keyword .var) rest)
    (room : Room s.scopes.subroutineScope before
      (groups.flatMap fun g => g.declarations .local)) :
    ∃ t, repeatWhile (· = .keyword .var) (varDec bound) rounds s = .ok () t ∧
      Declares s (join (groups.map VariableGroup.localOutput)) false
        (groups.flatMap fun g => g.declarations .local) t := by
  have stops : Stops (fun l => l.kind = .keyword .var) rest := by
    simpa only [Lexeme.kind_eq_keyword] using stops
  have room : Room (s.scopes.level false) before
    (groups.flatMap fun g => g.declarations .local) := room
  apply repeatWhile_declares _ VariableGroup.lexemes_localOutput often takes stops room
  intro g hg s rest before takes room
  have whole := length_le_of_mem VariableGroup.varDec hg
  have size := g.length_rest_le
  rw [VariableGroup.varDec, List.length_cons] at whole
  obtain ⟨t, run, p⟩ := varDec_ok bound (by omega) takes room
  exact ⟨decide_eq_true (Takes.kind_eq takes), t, run, p⟩

theorem classVarDecs_ok (bound : Nat) {decs : List ClassVarDec}
    (enough : (decs.flatMap ClassVarDec.lexemes).length ≤ bound) (rounds : Nat)
    (often : decs.length ≤ rounds)
    (takes : Takes s.window (decs.flatMap ClassVarDec.lexemes ++ rest))
    (stops : Stops (fun l => (VariableKind.ofClassKeyword? l.kind).isSome) rest)
    (room : Room s.scopes.classScope before (decs.flatMap ClassVarDec.declarations)) :
    ∃ t, repeatWhile (fun kind => (VariableKind.ofClassKeyword? kind).isSome)
        (classVarDec bound) rounds s = .ok () t ∧
      Declares s (join (decs.map ClassVarDec.output)) true
        (decs.flatMap ClassVarDec.declarations) t := by
  have room : Room (s.scopes.level true) before (decs.flatMap ClassVarDec.declarations) := room
  apply repeatWhile_declares _ ClassVarDec.lexemes_output often takes stops room
  intro d hd s rest before takes room
  have whole := length_le_of_mem ClassVarDec.lexemes hd
  have size := d.group.length_rest_le
  rw [ClassVarDec.lexemes, List.length_cons] at whole
  obtain ⟨t, run, p⟩ := classVarDec_ok bound (by omega) takes room
  refine ⟨?_, t, run, p⟩
  rw [Takes.kind_eq takes]
  cases d.storage <;> rfl

/-! ## Parameters -/

theorem parameter_ok {p : Parameter} (takes : Takes s.window (p.lexemes ++ rest))
    (room : Room s.scopes.subroutineScope before [p.declaration]) :
    ∃ t, parameter s = .ok () t ∧ Declares s p.output false [p.declaration] t := by
  obtain ⟨type, name⟩ := p
  have takes : Takes s.window (type.lexeme :: .identifier name :: rest) := takes
  obtain ⟨t, run, q⟩ := declareName_ok .argument takes.taken room.represents room.fits
  exact ⟨t, (bind_ok (typeName_ok takes) _).trans run, (takes.compiles.declares false).trans q⟩

theorem furtherParameters_ok (bound : Nat) {ps : List Parameter} (enough : ps.length ≤ bound)
    (takes : Takes s.window
      ((ps.flatMap fun p => .mark .comma :: p.lexemes) ++ .mark .rightParen :: rest))
    (room : Room s.scopes.subroutineScope before (ps.map Parameter.declaration)) :
    ∃ t, repeatWhile (· = .mark .comma) (do consume; parameter) bound s = .ok () t ∧
      Declares s (join (ps.map furtherParameterOutput)) false (ps.map Parameter.declaration) t := by
  have room : Room (s.scopes.level false) before (ps.map Parameter.declaration) := room
  simp only [List.map_eq_flatMap (f := Parameter.declaration)] at room ⊢
  apply repeatWhile_declares _ (fun _ => rfl) enough takes (stops_cons.mpr rfl) room
  intro p _ s rest before takes room
  have takes : Takes s.window (.mark .comma :: (p.lexemes ++ rest)) := takes
  obtain ⟨t, run, q⟩ := parameter_ok takes.taken room
  exact ⟨decide_eq_true takes.kind_eq_mark, t, (bind_ok (consume_ok takes) _).trans run,
    (takes.compiles.declares false).trans q⟩

theorem parameterList_ok (bound : Nat) {ps : List Parameter} (enough : ps.length ≤ bound)
    (takes : Takes s.window (parameterLexemes ps ++ .mark .rightParen :: rest))
    (room : Room s.scopes.subroutineScope before (ps.map Parameter.declaration)) :
    ∃ t, parameterList bound s = .ok () t ∧
      Declares s (within .parameterList (parameterOutput ps)) false
        (ps.map Parameter.declaration) t := by
  have takes := takes.entered .parameterList
  suffices h : ∃ r, (do
      if (← peekKind) = .mark .rightParen then
        pure ()
      else
        parameter
        repeatWhile (· = .mark .comma) (do
          consume
          parameter) bound : Compilation Unit) (s.entered .parameterList) = .ok () r ∧
      Declares (s.entered .parameterList) (parameterOutput ps) false
        (ps.map Parameter.declaration) r by
    obtain ⟨r, run, p⟩ := h
    exact ⟨r.left, production_eq_ok.mpr ⟨r, run, rfl⟩, p.within⟩
  rw [peekKind_bind]
  cases ps with
  | nil =>
    have closes : (s.entered .parameterList).peek.kind = .mark .rightParen := Takes.kind_eq takes
    rw [if_pos closes]
    exact ⟨_, rfl, Declares.refl _ false⟩
  | cons p ps =>
    simp only [parameterLexemes, List.append_assoc] at takes
    have room : Room (s.entered .parameterList).scopes.subroutineScope before
      ([p.declaration] ++ ps.map Parameter.declaration) := room
    have other : ¬ (s.entered .parameterList).peek.kind = .mark .rightParen := by
      rw [Takes.kind_eq takes]
      cases p.type <;> simp [TypeName.lexeme, Lexeme.kind]
    rw [if_neg other]
    obtain ⟨r, run, q⟩ := parameter_ok takes room.of_append
    obtain ⟨t, run', q'⟩ := furtherParameters_ok bound (Nat.le_of_succ_le enough)
      (q.takes_rest _ takes) (q.room room)
    exact ⟨t, (bind_ok run _).trans run', q.trans q'⟩

/-! ## Subroutines and classes -/

section
variable {c : ClassDec} {d : SubroutineDec}

theorem receiver_ok (ready : InSubroutine c [] s) (room : Admissible (d.declarations c.name)) :
    ∃ t, declareReceiver d.form s = .ok () t ∧
      Declares s {} false (d.form.receiver c.name) t := by
  suffices h : ∃ t, declareReceiver d.form s = .ok () t by
    obtain ⟨t, run⟩ := h
    exact ⟨t, run, ready.className ▸ receiver_declares run⟩
  cases form : d.form with
  | method =>
    have fits : Admissible ([] ++ [⟨"this", c.name, .argument⟩]) := by
      rw [SubroutineDec.declarations, form] at room
      exact room.of_append
    obtain ⟨t, run⟩ := declare_ok (s := s) (d := ⟨"this", c.name, .argument⟩) ready.represents fits
    refine ⟨t, ?_⟩
    rw [declareReceiver, className_bind, ready.className]
    exact run
  | constructor | function => exact ⟨s, rfl⟩

theorem subroutineBody_ok (bound : Nat) (ready : InSubroutine c
      (d.form.receiver c.name ++ d.parameters.map Parameter.declaration) s)
    (valid : d.Valid c) (small : 2 * d.bodyLexemes.length ≤ bound)
    (takes : Takes s.window (d.bodyLexemes ++ rest)) :
    ∃ t, subroutineBody (c.name ++ "." ++ d.name) d.form bound s = .ok () t ∧
      Progress s (d.bodyOutput c) t ∧ InClass c t := by
  have takes := takes.entered .subroutineBody
  simp only [SubroutineDec.bodyLexemes, inBraces, List.cons_append, List.append_assoc,
    List.nil_append] at takes
  simp only [SubroutineDec.bodyLexemes, inBraces, List.length_cons, List.length_append] at small
  have often := length_le_flatMap (f := VariableGroup.varDec) (fun _ => Nat.succ_pos _) d.varDecs
  have room : Room s.scopes.subroutineScope
      (d.form.receiver c.name ++ d.parameters.map Parameter.declaration)
      (d.varDecs.flatMap fun g => g.declarations .local) := by
    refine ⟨ready.represents, ?_⟩
    rw [List.append_assoc]
    exact valid.admissible
  obtain ⟨r₁, run₁, p₁⟩ := varDecs_ok bound (by omega) bound (by omega)
    takes.taken (statementLexemes_stop_var d.body rest) room
  have p₂ := (takes.compiles.declares false).trans p₁
  have inside := (ready.entered .subroutineBody).declares p₂
  rw [List.nil_append, List.append_assoc] at inside
  have inside : InSubroutine c (d.declarations c.name) r₁ := inside
  have p₃ : Compiles r₁ (wrote [.function (c.name ++ "." ++ d.name) d.localCount] ++
      wrote (SubroutineForm.prologue c.fieldCount d.form))
      ((r₁.emitted [.function (c.name ++ "." ++ d.name) d.localCount] (r₁.lineAt 0)).emitted
        (SubroutineForm.prologue c.fieldCount d.form) (r₁.lineAt 0)) :=
    (Compiles.wrote r₁ _ 0).trans (.wrote _ _ 0)
  have behind := (p₁.takes_rest (statementLexemes d.body ++ .mark .rightBrace :: rest)
    (by simpa [List.flatMap_map] using takes.taken)).emitted
    [.function (c.name ++ "." ++ d.name) d.localCount] (r₁.lineAt 0)
  have behind := behind.emitted (SubroutineForm.prologue c.fieldCount d.form) (r₁.lineAt 0)
  obtain ⟨r₂, run₂, q⟩ := statements_completes bound d.body (by omega) _ _
    behind (by rw [p₃.environment, inside.environment]; exact valid.permitted)
  rw [p₃.environment, inside.environment, p₃.ifLabels, p₃.whileLabels, inside.ifLabels,
    inside.whileLabels] at q
  have ending := q.takes_rest (.mark .rightBrace :: rest) (by simpa using behind)
  have p₄ := (p₃.trans q).trans ending.compiles
  refine ⟨r₂.taken.left, production_eq_ok.mpr ⟨r₂.taken, ?_, rfl⟩, ?_,
    (inside.toInClass.of_compiles p₄).left⟩
  · rw [bind_ok (expect_ok (.mark .leftBrace) takes rfl), bind_ok run₁, currentLine_bind,
      countOf_bind, emit_bind, countOf_bind, emitAll_bind]
    have fields : (r₁.emitted [.function (c.name ++ "." ++ d.name) d.localCount]
      (r₁.lineAt 0)).scopes.count .field = c.fieldCount := inside.count_field
    rw [inside.count_local, fields, bind_ok run₂]
    exact expect_ok (.mark .rightBrace) ending rfl
  · have all := (p₂.toProgress.trans p₄.toProgress).within
    simp only [SubroutineDec.bodyOutput, Output.append_assoc] at all ⊢
    exact all

theorem resultLexeme_allowed (result : Option TypeName) :
    (resultLexeme result).kind ∈ returnTypes := by
  rcases result with _ | ⟨_ | _ | _ | _⟩ <;>
    simp [resultLexeme, TypeName.lexeme, Lexeme.kind, returnTypes, variableTypes]

theorem ofKind?_keyword {form : SubroutineForm}
    (takes : Takes s.window (.keyword form.keyword :: rest)) :
    SubroutineForm.ofKind? s.peek.kind = some form := by
  rw [takes.kind_eq]
  cases form <;> rfl

theorem subroutineDec_ok (bound : Nat) (inClass : InClass c s) (valid : d.Valid c)
    (small : 2 * d.lexemes.length ≤ bound) (takes : Takes s.window (d.lexemes ++ rest)) :
    ∃ t, subroutineDec bound s = .ok () t ∧ Progress s (d.output c) t ∧ InClass c t := by
  have ready := inClass.restarted.entered .subroutineDec
  have takes : Takes (s.entered .subroutineDec).restarted.window (d.lexemes ++ rest) := takes
  simp only [SubroutineDec.lexemes, inParens, List.cons_append, List.append_assoc,
    List.nil_append] at takes
  simp only [SubroutineDec.lexemes, inParens, List.length_cons, List.length_append] at small
  have p₁ := takes.compiles
  have taken : InSubroutine c [] (s.entered .subroutineDec).restarted.taken :=
    ready.declares (p₁.declares false)
  obtain ⟨r₁, run₁, q₁⟩ := receiver_ok taken valid.admissible
  have p₂ := p₁.thenDeclares q₁
  rw [Output.append_empty] at p₂
  have typed := p₂.takes_rest _ takes
  have p₃ := (p₂.then typed.compiles).then typed.taken.compiles
  have named : r₁.taken.taken.className = c.name := p₃.className.trans inClass.className
  have p₄ := p₃.then typed.taken.taken.compiles
  have listing := (ready.declares p₄).represents
  rw [List.nil_append] at listing
  have room : Room r₁.taken.taken.taken.scopes.subroutineScope (d.form.receiver c.name)
      (d.parameters.map Parameter.declaration) := by
    refine ⟨listing, ?_⟩
    have fits := valid.admissible
    rw [SubroutineDec.declarations, SubroutineDec.named, ← List.append_assoc] at fits
    exact fits.of_append
  have enough : d.parameters.length ≤ (parameterLexemes d.parameters).length := by
    cases d.parameters with
    | nil => exact Nat.le_refl _
    | cons p ps =>
      have more := length_le_flatMap (f := fun p : Parameter => .mark .comma :: p.lexemes)
        (fun _ => Nat.succ_pos _) ps
      simp only [parameterLexemes, Parameter.lexemes, List.length_cons, List.length_append]
        at more ⊢
      omega
  obtain ⟨r₂, run₂, q₂⟩ := parameterList_ok bound (by omega) typed.taken.taken.taken
    room
  have closing := q₂.takes_rest (.mark .rightParen :: (d.bodyLexemes ++ rest))
    (by simpa using typed.taken.taken.taken)
  have p₅ := (p₄.trans q₂).then closing.compiles
  have inside := ready.declares p₅
  rw [List.nil_append] at inside
  obtain ⟨t, run₃, q₃, done⟩ := subroutineBody_ok bound inside valid (by omega)
    closing.taken
  refine ⟨t.left, production_eq_ok.mpr ⟨t, ?_, rfl⟩,
    (p₅.toProgress.trans q₃).of_restarted.within, done.left⟩
  have text : r₁.taken.taken.current.text = d.name := typed.taken.text_taken
  rw [startSubroutine_bind, peekKind_bind, ofKind?_keyword takes]
  simp only
  rw [bind_ok (consume_ok takes), bind_ok run₁,
    bind_ok (expectAny_ok typed (resultLexeme_allowed d.result)),
    bind_ok (expect_ok .identifier typed.taken rfl), className_bind, currentText_bind, named, text,
    bind_ok (expect_ok (.mark .leftParen) typed.taken.taken rfl), bind_ok run₂,
    bind_ok (expect_ok (.mark .rightParen) closing rfl)]
  exact run₃

theorem subroutines_ok (bound : Nat) {ds : List SubroutineDec} (inClass : InClass c s)
    (valid : ∀ d ∈ ds, d.Valid c)
    (small : 2 * (ds.flatMap SubroutineDec.lexemes).length ≤ bound) (rounds : Nat)
    (often : ds.length ≤ rounds)
    (takes : Takes s.window (ds.flatMap SubroutineDec.lexemes ++ .mark .rightBrace :: rest)) :
    ∃ t, repeatWhile (fun kind => (SubroutineForm.ofKind? kind).isSome) (subroutineDec bound)
        rounds s = .ok () t ∧
      Progress s (join (ds.map fun d => d.output c)) t ∧ InClass c t := by
  unfold repeatWhile
  induction ds generalizing s rounds with
  | nil =>
    refine ⟨s, iterate_stop () ?_, .refl s, inClass⟩
    rw [Takes.kind_eq takes]
    rfl
  | cons d ds ih =>
    cases rounds with
    | zero => simp at often
    | succ rounds =>
      simp only [List.flatMap_cons, List.append_assoc, List.length_append] at takes small
      obtain ⟨here, further⟩ := List.forall_mem_cons.mp valid
      obtain ⟨r, run, p, between⟩ := subroutineDec_ok bound inClass here (by omega) takes
      obtain ⟨t, run', q, done⟩ := ih between further (by omega) rounds
        (by simpa using often) (p.takes_rest _ (by simpa using takes))
      have again : (SubroutineForm.ofKind? s.peek.kind).isSome := by
        rw [ofKind?_keyword takes]
        rfl
      refine ⟨t, ?_, p.trans q, done⟩
      rw [iterate_step (b := ()) again run]
      exact run'

theorem classBody_ok (bound : Nat) (rest : List Lexeme) (className : s.className = c.name)
    (empty : s.scopes.classScope.Represents []) (valid : c.Valid)
    (small : 2 * c.lexemes.length ≤ bound)
    (takes : Takes s.window (inBraces (c.varDecs.flatMap ClassVarDec.lexemes ++
      c.subroutines.flatMap SubroutineDec.lexemes) ++ rest)) :
    ∃ t, classBody bound s = .ok () t ∧ t.className = c.name ∧
      Progress s (took (.mark .leftBrace) ++ join (c.varDecs.map ClassVarDec.output) ++
        join (c.subroutines.map fun d => d.output c) ++ took (.mark .rightBrace)) t := by
  simp only [inBraces, List.cons_append, List.append_assoc, List.nil_append] at takes
  simp only [ClassDec.lexemes, inBraces, List.length_cons, List.length_append] at small
  have decs := length_le_flatMap (f := ClassVarDec.lexemes) (fun _ => Nat.succ_pos _) c.varDecs
  have subroutines := length_le_flatMap (f := SubroutineDec.lexemes) (fun _ => Nat.succ_pos _)
    c.subroutines
  have room : Room s.taken.scopes.classScope [] (c.varDecs.flatMap ClassVarDec.declarations) :=
    ⟨empty, valid.admissible⟩
  obtain ⟨r₁, run₁, p₁⟩ := classVarDecs_ok bound (by omega) bound (by omega) takes.taken
    (subroutines_stop c.subroutines rest) room
  have p₂ := (takes.compiles.declares true).trans p₁
  have behind := p₁.takes_rest
    (c.subroutines.flatMap SubroutineDec.lexemes ++ .mark .rightBrace :: rest)
    (by simpa [List.flatMap_map] using takes.taken)
  have outer := (p₂.declares empty admissible_nil).1
  have inClass : InClass c r₁ := ⟨p₂.className.trans className, outer⟩
  obtain ⟨r₂, run₂, p₃, done⟩ := subroutines_ok bound inClass valid.subroutines (by omega)
    bound (by omega) behind
  have ending := p₃.takes_rest (.mark .rightBrace :: rest)
    (by simpa [List.flatMap_map] using behind)
  refine ⟨r₂.taken, ?_, done.className, (p₂.toProgress.trans p₃).trans ending.compiles.toProgress⟩
  rw [classBody, bind_ok (expect_ok (.mark .leftBrace) takes rfl), bind_ok run₁, bind_ok run₂]
  exact expect_ok (.mark .rightBrace) ending rfl

theorem length_le_of_takes {input : TokenStream} {ls : List Lexeme} (terminals : Terminals ls)
    {x y : Token} (takes : Takes (Stream'.cons x (Stream'.cons y input.toStream)) ls) :
    ls.length ≤ input.upcoming.length + 1 := by
  obtain ⟨upcoming, endLine⟩ := input
  induction ls generalizing x y upcoming with
  | nil => exact Nat.zero_le _
  | cons l ls ih =>
    have more := takes.2.2
    rw [TokenStream.toStream_next] at more
    cases upcoming with
    | nil =>
      cases ls with
      | nil => exact Nat.le_refl _
      | cons m ls =>
        have last : Lexeme.endOfInput = m := more.1
        have terminal := terminals m (List.mem_cons_of_mem _ (List.mem_cons_self ..))
        rw [← last] at terminal
        cases terminal
    | cons token upcoming =>
      have shorter := ih (terminals_cons.mp terminals).2 upcoming more
      exact Nat.succ_le_succ shorter

/-- A valid class compiles wherever its text lies ahead, whatever was declared, counted or written
before. -/
theorem class_ok (valid : c.Valid) (takes : Takes s.window c.lexemes) :
    ∃ t, (production .class (do
      expect (.keyword .class)
      expect .identifier
      startClass (← currentText)
      classBody (2 * s.input.upcoming.length + 8))) s = .ok () t ∧
      Progress s c.output t ∧ t.className = c.name := by
  have enough : c.lexemes.length ≤ s.input.upcoming.length + 1 :=
    length_le_of_takes c.terminals takes
  have ahead := takes.entered .class
  simp only [ClassDec.lexemes] at ahead
  have head := ahead.compiles.trans ahead.taken.compiles
  have text : (s.entered .class).taken.taken.current.text = c.name := ahead.taken.text_taken
  let start : CompilerState := { (s.entered .class).taken.taken with
    className := c.name, scopes := (s.entered .class).taken.taken.scopes.startClass }
  have started : Progress (s.entered .class)
      (took (.keyword .class) ++ took (.identifier c.name)) start :=
    ⟨head.takes, head.window, head.instructions, head.lines, head.trace⟩
  obtain ⟨r, run, named, p⟩ := classBody_ok (s := start) (2 * s.input.upcoming.length + 8) [] rfl
    Scope.represents_empty valid (by omega)
    (by rw [List.append_nil]; exact ahead.taken.taken)
  refine ⟨r.left, production_eq_ok.mpr ⟨r, ?_, rfl⟩, ?_, named⟩
  · rw [bind_ok (expect_ok (.keyword .class) ahead rfl),
      bind_ok (expect_ok .identifier ahead.taken rfl), currentText_bind, text]
    exact run
  · have all := (started.trans p).within
    simp only [ClassDec.output, Output.append_assoc] at all ⊢
    exact all

/-- Only the end of the input may follow a class. -/
theorem wholeClass_eq (valid : c.Valid) (takes : Takes s.window c.lexemes) :
    ∃ t, Progress s c.output t ∧ t.className = c.name ∧
      wholeClass s = if t.peek.kind = .endOfInput then .ok () t
        else .error (.atToken t.peek (.expected [.endOfInput])) t := by
  obtain ⟨t, run, p, named⟩ := class_ok valid takes
  have depth : depthBound s = .ok (2 * s.input.upcoming.length + 8) s := rfl
  refine ⟨t, p, named, ?_⟩
  rw [wholeClass, bind_ok depth, bind_ok run, peekKind_bind]
  split <;> rfl

theorem wholeClass_ok (valid : c.Valid) (takes : Takes s.window c.lexemes)
    (ended : (s.window.get (c.lexemes.length + 1)).lexeme = .endOfInput) :
    ∃ t, wholeClass s = .ok () t ∧ Progress s c.output t := by
  obtain ⟨t, p, -, run⟩ := wholeClass_eq valid takes
  have last : t.peek.kind = .endOfInput := by
    have place : t.peek = s.window.get (c.lexemes.length + 1) := by
      rw [← t.window_get_one, p.window, c.lexemes_output, Stream'.get_drop]
    rw [place, Token.kind, ended]
    rfl
  rw [if_pos last] at run
  exact ⟨t, run, p⟩

end

end Compilation

end JackVm

import JackVm.Compilation.Class
import JackVm.Proofs.Compilation.ClassOutput
import JackVm.Proofs.Compilation.ExpressionSound
import JackVm.Proofs.Translation.ScopeTable

/-!
# Compiled declarations

`Declares s o level ds t` says that a compilation has gone from `s` to `t` with output `o` and has
put the declarations `ds` into the scope of a level. Whether it may is a matter of the list of all
declarations of that scope.
-/

namespace JackVm

structure Declares (s : CompilerState) (o : Output) (classLevel : Bool)
    (declarations : List Declaration) (t : CompilerState) : Prop extends Progress s o t where
  className : t.className = s.className
  ifLabels : t.ifLabels = s.ifLabels
  whileLabels : t.whileLabels = s.whileLabels
  other : t.scopes.level (!classLevel) = s.scopes.level (!classLevel)
  declares {before : List Declaration} :
    (s.scopes.level classLevel).Represents before → Admissible before →
      (t.scopes.level classLevel).Represents (before ++ declarations) ∧
        Admissible (before ++ declarations)

section
variable {s r t : CompilerState} {a b o : Output} {classLevel : Bool} {ds es : List Declaration}
  {l : Lexeme}

theorem Declares.refl (s : CompilerState) (classLevel : Bool) : Declares s {} classLevel [] s where
  toProgress := .refl s
  className := rfl
  ifLabels := rfl
  whileLabels := rfl
  other := rfl
  declares represents admissible := by
    rw [List.append_nil]
    exact ⟨represents, admissible⟩

theorem Compiles.declares (h : Compiles s (.took l) t) (classLevel : Bool) :
    Declares s (.took l) classLevel [] t where
  toProgress := h.toProgress
  className := h.className
  ifLabels := h.ifLabels
  whileLabels := h.whileLabels
  other := by rw [h.scopes]
  declares represents admissible := by
    rw [h.scopes, List.append_nil]
    exact ⟨represents, admissible⟩

theorem Declares.trans (first : Declares s a classLevel ds r)
    (second : Declares r b classLevel es t) : Declares s (a ++ b) classLevel (ds ++ es) t where
  toProgress := first.toProgress.trans second.toProgress
  className := second.className.trans first.className
  ifLabels := second.ifLabels.trans first.ifLabels
  whileLabels := second.whileLabels.trans first.whileLabels
  other := second.other.trans first.other
  declares represents admissible := by
    obtain ⟨represents, admissible⟩ := first.declares represents admissible
    rw [← List.append_assoc]
    exact second.declares represents admissible

theorem Declares.then (first : Declares s a classLevel ds r) (second : Compiles r (.took l) t) :
    Declares s (a ++ .took l) classLevel ds t := by
  simpa using first.trans (second.declares classLevel)

theorem Compiles.thenDeclares (first : Compiles s (.took l) r)
    (second : Declares r b classLevel ds t) : Declares s (.took l ++ b) classLevel ds t :=
  (first.declares classLevel).trans second

theorem Declares.within {p : Production} (h : Declares (s.entered p) o classLevel ds t) :
    Declares s (.within p o) classLevel ds t.left where
  toProgress := h.toProgress.within
  className := h.className
  ifLabels := h.ifLabels
  whileLabels := h.whileLabels
  other := h.other
  declares := h.declares

end

/-! ## Keywords and types -/

theorem lexeme_of_variableTypes {l : Lexeme} (h : l.kind ∈ variableTypes) :
    ∃ type : TypeName, l = type.lexeme := by
  simp only [variableTypes, List.mem_cons, List.not_mem_nil, or_false, Lexeme.kind_eq_keyword,
    Lexeme.kind_eq_identifier] at h
  obtain rfl | rfl | rfl | ⟨name, rfl⟩ := h
  · exact ⟨.int, rfl⟩
  · exact ⟨.char, rfl⟩
  · exact ⟨.boolean, rfl⟩
  · exact ⟨.named name, rfl⟩

theorem lexeme_of_returnTypes {l : Lexeme} (h : l.kind ∈ returnTypes) :
    ∃ result : Option TypeName, l = resultLexeme result := by
  rcases List.mem_cons.mp h with h | h
  · exact ⟨none, Lexeme.kind_eq_keyword.mp h⟩
  · obtain ⟨type, rfl⟩ := lexeme_of_variableTypes h
    exact ⟨some type, rfl⟩

theorem storage_of_classKeyword {l : Lexeme} {kind : VariableKind}
    (h : VariableKind.ofClassKeyword? l.kind = some kind) :
    ∃ storage : Storage, kind = storage.kind ∧ l = .keyword storage.keyword := by
  unfold VariableKind.ofClassKeyword? at h
  split at h
  · next k =>
    cases h
    exact ⟨.static, rfl, Lexeme.kind_eq_keyword.mp k⟩
  · next k =>
    cases h
    exact ⟨.field, rfl, Lexeme.kind_eq_keyword.mp k⟩
  · cases h

theorem form_of_keyword {l : Lexeme} {form : SubroutineForm}
    (h : SubroutineForm.ofKind? l.kind = some form) : l = .keyword form.keyword := by
  unfold SubroutineForm.ofKind? at h
  split at h <;> cases h <;> rename_i k <;> exact Lexeme.kind_eq_keyword.mp k

namespace Compilation

open Output

variable {s t : CompilerState} {bound : Nat} {rest : List Lexeme} {before : List Declaration}

theorem declares_of_declare {name type : String} {kind : VariableKind}
    (h : declare name type kind s = .ok () t) :
    Declares s {} kind.isClassLevel [⟨name, type, kind⟩] t := by
  unfold declare at h
  split at h
  · next v table run =>
    cases h
    unfold ScopeTable.declare at run
    split at run
    · next w scope run' =>
      cases run
      refine ⟨⟨trivial, rfl, by simp, by simp, by cases s.trace <;> simp⟩, rfl, rfl, rfl, ?_, ?_⟩
      · cases kind <;> rfl
      · intro before represents admissible
        have level : s.scopes.scope kind = s.scopes.level kind.isClassLevel := rfl
        rw [level] at run'
        obtain ⟨fresh, room, represents'⟩ :=
          represents.of_declare (d := ⟨name, type, kind⟩) run'
        refine ⟨?_, (admissible_append_singleton ..).mpr ⟨admissible, fresh, room⟩⟩
        cases kind <;> exact represents'
    · cases run
  · cases h

theorem declare_ok {d : Declaration}
    (represents : (s.scopes.level d.kind.isClassLevel).Represents before)
    (fits : Admissible (before ++ [d])) :
    ∃ t, declare d.name d.type d.kind s = .ok () t := by
  obtain ⟨v, scope, run⟩ := represents.declare_ok fits
  have level : s.scopes.scope d.kind = s.scopes.level d.kind.isClassLevel := rfl
  rw [← level] at run
  refine ⟨{ s with scopes := s.scopes.withScope d.kind scope }, ?_⟩
  simp [declare, ScopeTable.declare, run]

theorem declareName_declares {type : String} {kind : VariableKind}
    (h : declareName type kind s = .ok () t) :
    ∃ name, Declares s (took (.identifier name)) kind.isClassLevel [⟨name, type, kind⟩] t := by
  obtain ⟨_, r, named, run⟩ := bind_eq_ok.mp h
  obtain ⟨name, p, text⟩ := compiles_of_identifier named
  rw [currentText_bind, text] at run
  exact ⟨name, p.thenDeclares (declares_of_declare run)⟩

theorem declareName_ok (kind : VariableKind) {name type : String}
    (takes : Takes s.window (.identifier name :: rest))
    (represents : (s.scopes.level kind.isClassLevel).Represents before)
    (fits : Admissible (before ++ [⟨name, type, kind⟩])) :
    ∃ t, declareName type kind s = .ok () t ∧
      Declares s (took (.identifier name)) kind.isClassLevel [⟨name, type, kind⟩] t := by
  have p := takes.compiles
  have text : s.taken.current.text = name := by
    show s.peek.lexeme.text = name
    rw [← s.window_get_one, takes.1]
    rfl
  rw [← p.scopes] at represents
  obtain ⟨t, run⟩ := declare_ok (d := ⟨name, type, kind⟩) represents fits
  refine ⟨t, ?_, p.thenDeclares (declares_of_declare run)⟩
  rw [declareName, bind_ok (expect_ok .identifier takes rfl), currentText_bind, text]
  exact run

/-! ## Types and groups of names -/

theorem typeName_compiles {text : String} (h : typeName variableTypes s = .ok text t) :
    ∃ type : TypeName, text = type.text ∧ Compiles s (took type.lexeme) t := by
  obtain ⟨_, r, run, done⟩ := bind_eq_ok.mp h
  obtain ⟨allowed, readable, rfl⟩ := expectAny_eq_ok.mp run
  cases done
  obtain ⟨type, lexeme⟩ := lexeme_of_variableTypes allowed
  refine ⟨type, ?_, .taken lexeme readable⟩
  show s.peek.lexeme.text = type.lexeme.text
  rw [lexeme]

theorem typeName_ok {type : TypeName} (takes : Takes s.window (type.lexeme :: rest)) :
    typeName variableTypes s = .ok type.text s.taken := by
  have allowed : type.lexeme.kind ∈ variableTypes := by
    cases type <;> simp [variableTypes, TypeName.lexeme, Lexeme.kind]
  rw [typeName, bind_ok (expectAny_ok takes allowed)]
  show EStateM.Result.ok s.peek.lexeme.text s.taken = _
  rw [← s.window_get_one, takes.1]
  rfl

theorem Loops.declares {τ : Type} {p : TokenKind → Bool} {body : Unit → Compilation Unit}
    {classLevel : Bool} {output : τ → Output} {declarations : τ → List Declaration}
    (round : ∀ s t, p s.peek.kind → body () s = .ok () t →
      ∃ x, Declares s (output x) classLevel (declarations x) t)
    {u v : Unit} (h : Loops p body u s v t) :
    ∃ xs : List τ, Declares s (join (xs.map output)) classLevel (xs.flatMap declarations) t := by
  induction h with
  | stop _ s => exact ⟨[], Declares.refl s _⟩
  | step again run _ ih =>
    obtain ⟨x, first⟩ := round _ _ again run
    obtain ⟨xs, more⟩ := ih
    exact ⟨x :: xs, first.trans more⟩

theorem furtherNames_declares {type : String} {kind : VariableKind} {u v : Unit}
    (h : Loops (· = .mark .comma) (fun _ => do consume; declareName type kind) u s v t) :
    ∃ names : List String, Declares s (join (names.map furtherNameOutput)) kind.isClassLevel
      (names.map fun name => ⟨name, type, kind⟩) t := by
  simp only [List.map_eq_flatMap (f := fun name => Declaration.mk name type kind)]
  apply h.declares
  intro s t again run
  obtain ⟨_, r, comma, named⟩ := bind_eq_ok.mp run
  obtain ⟨p, -⟩ := compiles_of_consume comma
  rw [Lexeme.kind_eq_mark.mp (of_decide_eq_true again)] at p
  obtain ⟨name, q⟩ := declareName_declares named
  exact ⟨name, p.thenDeclares q⟩

theorem variableNames_declares {kind : VariableKind} (h : variableNames kind bound s = .ok () t) :
    ∃ g : VariableGroup, Declares s g.output kind.isClassLevel (g.declarations kind) t := by
  simp only [variableNames, bind_eq_ok] at h
  obtain ⟨text, r₁, typed, _, r₂, named, _, r₃, more, ended⟩ := h
  obtain ⟨type, rfl, p⟩ := typeName_compiles typed
  obtain ⟨first, q⟩ := declareName_declares named
  obtain ⟨names, q'⟩ := furtherNames_declares (loops_of_iterate more)
  exact ⟨⟨type, first, names⟩, ((p.thenDeclares q).trans q').then (compiles_of_mark ended)⟩

theorem classVarDec_declares (starts : (VariableKind.ofClassKeyword? s.peek.kind).isSome)
    (h : classVarDec bound s = .ok () t) :
    ∃ d : ClassVarDec, Declares s d.output true d.declarations t := by
  obtain ⟨kind, starts⟩ := Option.isSome_iff_exists.mp starts
  rw [classVarDec, production_eq_ok] at h
  obtain ⟨r, run, rfl⟩ := h
  rw [peekKind_bind, CompilerState.entered_peek, starts] at run
  obtain ⟨_, r₁, taken, named⟩ := bind_eq_ok.mp run
  obtain ⟨p, -⟩ := compiles_of_consume taken
  obtain ⟨g, q⟩ := variableNames_declares named
  obtain ⟨storage, rfl, lexeme⟩ := storage_of_classKeyword starts
  rw [CompilerState.entered_peek, lexeme] at p
  exact ⟨⟨storage, g⟩, by cases storage <;> exact (p.thenDeclares q).within⟩

theorem varDec_declares (h : varDec bound s = .ok () t) :
    ∃ g : VariableGroup, Declares s g.localOutput false (g.declarations .local) t := by
  rw [varDec, production_eq_ok] at h
  obtain ⟨r, run, rfl⟩ := h
  obtain ⟨_, r₁, taken, named⟩ := bind_eq_ok.mp run
  obtain ⟨g, q⟩ := variableNames_declares named
  exact ⟨g, ((compiles_of_keyword taken).thenDeclares q).within⟩

theorem parameter_declares (h : parameter s = .ok () t) :
    ∃ p : Parameter, Declares s p.output false [p.declaration] t := by
  obtain ⟨text, r, typed, named⟩ := bind_eq_ok.mp h
  obtain ⟨type, rfl, p⟩ := typeName_compiles typed
  obtain ⟨name, q⟩ := declareName_declares named
  exact ⟨⟨type, name⟩, p.thenDeclares q⟩

theorem furtherParameters_declares {u v : Unit}
    (h : Loops (· = .mark .comma) (fun _ => do consume; parameter) u s v t) :
    ∃ ps : List Parameter, Declares s (join (ps.map furtherParameterOutput)) false
      (ps.map Parameter.declaration) t := by
  simp only [List.map_eq_flatMap (f := Parameter.declaration)]
  apply h.declares
  intro s t again run
  obtain ⟨_, r, comma, named⟩ := bind_eq_ok.mp run
  obtain ⟨p, -⟩ := compiles_of_consume comma
  rw [Lexeme.kind_eq_mark.mp (of_decide_eq_true again)] at p
  obtain ⟨first, q⟩ := parameter_declares named
  exact ⟨first, p.thenDeclares q⟩

theorem parameterList_declares (h : parameterList bound s = .ok () t) :
    ∃ ps : List Parameter, Declares s (within .parameterList (parameterOutput ps)) false
      (ps.map Parameter.declaration) t := by
  rw [parameterList, production_eq_ok] at h
  obtain ⟨r, run, rfl⟩ := h
  rw [peekKind_bind] at run
  split at run
  · obtain ⟨-, rfl⟩ := pure_eq_ok.mp run
    exact ⟨[], (Declares.refl _ false).within⟩
  · obtain ⟨_, r₁, named, more⟩ := bind_eq_ok.mp run
    obtain ⟨first, q⟩ := parameter_declares named
    obtain ⟨ps, q'⟩ := furtherParameters_declares (loops_of_iterate more)
    exact ⟨first :: ps, (q.trans q').within⟩

end Compilation

end JackVm

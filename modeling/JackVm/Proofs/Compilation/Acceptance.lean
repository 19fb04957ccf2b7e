import JackVm.Proofs.Compilation.ClassComplete
import JackVm.Proofs.Compilation.Translation
import JackVm.Proofs.Syntax.Mention

/-!
# What is accepted

A source compiles exactly if it is the text of a class in which every name is declared once, no
kind has too many names, variables are declared, and constants and calls keep within their limits.
Nothing is asked of the names of types, of subroutines, or of what a call is qualified with.
-/

namespace JackVm

/-- Whether a use is in order where some names are variables. -/
def Use.Acceptable (visible : List String) : Use → Prop
  | .integer digits => numeralValue digits ≤ 32767
  | .string content => content.length ≤ 65535 ∧ ∀ c ∈ content.toList, c.toNat ≤ 0xFFFF
  | .variable name => name ∈ visible
  | .call (.own _) arguments => arguments + 1 ≤ 65535
  | .call (.qualified qualifier _) arguments =>
    arguments + (if qualifier ∈ visible then 1 else 0) ≤ 65535

/-- The names of the variables that the statements of a subroutine may use. -/
def SubroutineDec.visible (d : SubroutineDec) (c : ClassDec) : List String :=
  (d.named ++ c.declarations).map Declaration.name

structure SubroutineDec.Acceptable (d : SubroutineDec) (c : ClassDec) : Prop where
  nodup : (d.named.map Declaration.name).Nodup
  arguments_le : d.parameters.length + (if d.form = .method then 1 else 0) ≤ 65535
  locals_le : d.localCount ≤ 65535
  uses : ∀ u ∈ statementUses d.body, u.Acceptable (d.visible c)

structure ClassDec.Acceptable (c : ClassDec) : Prop where
  nodup : (c.declarations.map Declaration.name).Nodup
  statics_le : c.declarations.countP (·.kind = .static) ≤ 65535
  fields_le : c.declarations.countP (·.kind = .field) ≤ 65535
  subroutines : ∀ d ∈ c.subroutines, d.Acceptable c

theorem ClassDec.countP_class_kind (c : ClassDec) {kind : VariableKind}
    (h : kind.isClassLevel = false) : c.declarations.countP (·.kind = kind) = 0 := by
  rw [List.countP_eq_zero]
  intro x hx
  obtain ⟨d, -, hx⟩ := List.mem_flatMap.mp hx
  obtain ⟨name, -, rfl⟩ := List.mem_map.mp hx
  cases storage : d.storage <;> cases kind <;> simp_all [Storage.kind, VariableKind.isClassLevel]

theorem ClassDec.admissible_iff (c : ClassDec) :
    Admissible c.declarations ↔ (c.declarations.map Declaration.name).Nodup ∧
      c.declarations.countP (·.kind = .static) ≤ 65535 ∧
      c.declarations.countP (·.kind = .field) ≤ 65535 := by
  constructor
  · rintro ⟨nodup, count_le⟩
    exact ⟨nodup, count_le .static, count_le .field⟩
  · rintro ⟨nodup, statics, fields⟩
    constructor
    · exact nodup
    · intro kind
      cases kind with
      | static => exact statics
      | field => exact fields
      | argument | «local» =>
        rw [c.countP_class_kind rfl]
        exact Nat.zero_le _

theorem countP_locals_eq_zero (groups : List VariableGroup) {kind : VariableKind}
    (h : kind ≠ .local) :
    (groups.flatMap fun g => g.declarations .local).countP (·.kind = kind) = 0 := by
  rw [List.countP_eq_zero]
  intro x hx
  obtain ⟨g, -, hx⟩ := List.mem_flatMap.mp hx
  obtain ⟨name, -, rfl⟩ := List.mem_map.mp hx
  simpa using h.symm

theorem SubroutineDec.countP_argument (d : SubroutineDec) (className : String) :
    (d.declarations className).countP (·.kind = .argument) =
      d.parameters.length + if d.form = .method then 1 else 0 := by
  have parameters : (d.parameters.map Parameter.declaration).countP (·.kind = .argument) =
      d.parameters.length := by
    simp [List.countP_map, Function.comp_def, Parameter.declaration]
  rw [declarations, named, List.countP_append, List.countP_append, parameters,
    countP_locals_eq_zero _ (by decide)]
  cases d.form <;> simp [SubroutineForm.receiver, Nat.add_comm]

theorem SubroutineDec.countP_outside (d : SubroutineDec) (className : String)
    {kind : VariableKind} (h : kind.isClassLevel) :
    (d.declarations className).countP (·.kind = kind) = 0 := by
  have other : kind ≠ .local ∧ VariableKind.argument ≠ kind := by
    constructor <;> rintro rfl <;> cases h
  have parameters : (d.parameters.map Parameter.declaration).countP (·.kind = kind) = 0 := by
    simp [List.countP_map, Function.comp_def, Parameter.declaration, other.2]
  rw [declarations, named, List.countP_append, List.countP_append, parameters,
    countP_locals_eq_zero _ other.1]
  cases d.form <;> simp [SubroutineForm.receiver, other.2]

/-- The receiver of a method takes up a number, but its name is not one that can be declared. -/
theorem SubroutineDec.admissible_iff (d : SubroutineDec) (className : String)
    (this : "this" ∉ d.named.map Declaration.name) :
    Admissible (d.declarations className) ↔ (d.named.map Declaration.name).Nodup ∧
      d.parameters.length + (if d.form = .method then 1 else 0) ≤ 65535 ∧
      d.localCount ≤ 65535 := by
  have nodup_iff : ((d.declarations className).map Declaration.name).Nodup ↔
      (d.named.map Declaration.name).Nodup := by
    rw [declarations]
    cases d.form with
    | method =>
      simp only [SubroutineForm.receiver, List.cons_append, List.nil_append, List.map_cons,
        List.nodup_cons]
      exact and_iff_right this
    | constructor | function => rfl
  rw [← d.countP_argument className, ← d.countP_declarations className, ← nodup_iff]
  constructor
  · rintro ⟨nodup, count_le⟩
    exact ⟨nodup, count_le .argument, count_le .local⟩
  · rintro ⟨nodup, arguments, locals⟩
    constructor
    · exact nodup
    · intro kind
      cases kind with
      | argument => exact arguments
      | «local» => exact locals
      | static | field =>
        rw [d.countP_outside className rfl]
        exact Nat.zero_le _

/-- A name is a variable of a subroutine if it is one of those visible, except for the receiver. -/
theorem SubroutineDec.isSome_find?_iff (d : SubroutineDec) (c : ClassDec) {name : String}
    (this : name ≠ "this") :
    ((d.environment c).find? name).isSome ↔ name ∈ d.visible c := by
  have inner : name ∈ (d.declarations c.name).map Declaration.name ↔
      name ∈ d.named.map Declaration.name := by
    rw [declarations, List.map_append, List.mem_append]
    cases d.form <;> simp [SubroutineForm.receiver, this]
  show ((variableNamed? (d.declarations c.name) name).or
    (variableNamed? c.declarations name)).isSome ↔ _
  rw [Option.isSome_or, Bool.or_eq_true, isSome_variableNamed?, isSome_variableNamed?, inner,
    visible, List.map_append, List.mem_append]

theorem Use.permitted_iff {d : SubroutineDec} {c : ClassDec} {u : Use}
    (this : u.lexeme ≠ .identifier "this") :
    u.Permitted (d.environment c) ↔ u.Acceptable (d.visible c) := by
  cases u with
  | integer digits => rfl
  | string content => rfl
  | «variable» name => exact d.isSome_find?_iff c fun same => this (congrArg _ same)
  | call callee arguments =>
    cases callee with
    | own name => rfl
    | qualified qualifier name =>
      have declared : ((d.environment c).find? qualifier).isSome ↔ qualifier ∈ d.visible c :=
        d.isSome_find?_iff c fun same => this (congrArg _ same)
      rw [Permitted, Acceptable, Environment.receivers]
      simp only [declared]
      rfl

/-- What a tree needs in order to compile, for one in which no name is spelled `this`. -/
theorem ClassDec.valid_iff (c : ClassDec) (this : .identifier "this" ∉ c.lexemes) :
    c.Valid ↔ c.Acceptable := by
  have inside (d : SubroutineDec) (hd : d ∈ c.subroutines) :
      "this" ∉ d.named.map Declaration.name ∧
        ∀ u ∈ statementUses d.body, u.lexeme ≠ .identifier "this" := by
    refine ⟨fun h => this (c.subset_lexemes hd (d.mem_lexemes_of_named h)), ?_⟩
    rintro u hu same
    exact this (c.subset_lexemes hd (same ▸ d.mentions u hu u.lexeme_mem))
  have each (d : SubroutineDec) (hd : d ∈ c.subroutines) : d.Valid c ↔ d.Acceptable c := by
    obtain ⟨named, used⟩ := inside d hd
    have admissible := d.admissible_iff c.name named
    constructor
    · rintro ⟨declared, permitted⟩
      obtain ⟨nodup, arguments, locals⟩ := admissible.mp declared
      exact ⟨nodup, arguments, locals,
        fun u hu => (Use.permitted_iff (used u hu)).mp (permitted u hu)⟩
    · rintro ⟨nodup, arguments, locals, uses⟩
      exact ⟨admissible.mpr ⟨nodup, arguments, locals⟩,
        fun u hu => (Use.permitted_iff (used u hu)).mpr (uses u hu)⟩
  constructor
  · rintro ⟨admissible, subroutines⟩
    obtain ⟨nodup, statics, fields⟩ := c.admissible_iff.mp admissible
    exact ⟨nodup, statics, fields, fun d hd => (each d hd).mp (subroutines d hd)⟩
  · rintro ⟨nodup, statics, fields, subroutines⟩
    exact ⟨c.admissible_iff.mpr ⟨nodup, statics, fields⟩,
      fun d hd => (each d hd).mpr (subroutines d hd)⟩

/-- A source that is the text of a valid class compiles. -/
theorem compile_ok {source : ByteArray} {text : String} {c : ClassDec}
    (decoded : String.fromUTF8? source = some text) (derives : c.lexemes = sourceLexemes text)
    (valid : c.Valid) : ∃ code, compile source = .ok code := by
  obtain ⟨readable, takes, ended⟩ := (takes_all_iff (endOfInput_not_mem_sourceLexemes text)
    c.terminals (CompilerState.ofString text false).peek).mpr derives.symm
  obtain ⟨t, run, -⟩ := Compilation.wholeClass_ok (s := .start text false) valid
    (by rw [CompilerState.window_start]; exact takes)
    (by rw [CompilerState.window_start]; exact ended)
  exact ⟨t.code, compile_eq_ok.mpr ⟨t, finalState_eq_ok.mpr ⟨text, decoded, readable, run⟩, rfl⟩⟩

/-- Exactly the sources that are valid UTF-8, have no fault in them, and are the text of an
acceptable class compile. -/
theorem compile_succeeds_iff (source : ByteArray) :
    (∃ code, compile source = .ok code) ↔
      ∃ text, String.fromUTF8? source = some text ∧
        (∀ f, .fault f ∉ sourceLexemes text) ∧
        ∃ c : ClassDec, c.lexemes = sourceLexemes text ∧ c.Acceptable := by
  have this (text : String) (c : ClassDec) (derives : c.lexemes = sourceLexemes text) :
      .identifier "this" ∉ c.lexemes := by
    intro h
    have keyword : Keyword.ofSpelling? "this" = some .this := by decide
    rw [derives] at h
    rw [ofSpelling?_of_mem_sourceLexemes h] at keyword
    cases keyword
  constructor
  · rintro ⟨code, run⟩
    obtain ⟨text, c, decoded, derives, valid, -⟩ := compile_yields run
    refine ⟨text, decoded, fun f hf => ?_, c, derives,
      (c.valid_iff (this text c derives)).mp valid⟩
    exact absurd (c.terminals _ (derives ▸ hf)) (by simp [Lexeme.isTerminal])
  · rintro ⟨text, decoded, -, c, derives, acceptable⟩
    exact compile_ok decoded derives ((c.valid_iff (this text c derives)).mpr acceptable)

/-- Zeros in front of the largest integer do not count, and the next integer is too large. -/
theorem compile_succeeds_iff_largest_integer :
    numeralValue "00032767" = 32767 ∧ numeralValue "32768" = 32768 ∧
    (compile "class A \x7b function int f() \x7b return 00032767; \x7d\x7d".toUTF8 =
        .ok (.ofRows [⟨.function "A.f" 0, 1⟩, ⟨.push .constant 32767, 1⟩, ⟨.return, 1⟩]) ∧
      ∃ text, String.fromUTF8?
          "class A \x7b function int f() \x7b return 00032767; \x7d\x7d".toUTF8 = some text ∧
        (∀ f, .fault f ∉ sourceLexemes text) ∧
        ∃ c : ClassDec, c.lexemes = sourceLexemes text ∧ c.Acceptable) ∧
    compile "class A \x7b function int f() \x7b return 32768; \x7d\x7d".toUTF8 =
        .error (.atToken ⟨.integer "32768", 1⟩ .integerTooLarge) ∧
      ¬ ∃ text, String.fromUTF8?
          "class A \x7b function int f() \x7b return 32768; \x7d\x7d".toUTF8 = some text ∧
        (∀ f, .fault f ∉ sourceLexemes text) ∧
        ∃ c : ClassDec, c.lexemes = sourceLexemes text ∧ c.Acceptable := by
  have accepted :
      compile "class A \x7b function int f() \x7b return 00032767; \x7d\x7d".toUTF8 =
      .ok (.ofRows [⟨.function "A.f" 0, 1⟩, ⟨.push .constant 32767, 1⟩, ⟨.return, 1⟩]) := by
    rw [compile_ofList]
    decide +kernel
  have refused : compile "class A \x7b function int f() \x7b return 32768; \x7d\x7d".toUTF8 =
      .error (.atToken ⟨.integer "32768", 1⟩ .integerTooLarge) := by
    rw [compile_ofList]
    decide +kernel
  refine ⟨by decide, by decide, ⟨accepted, (compile_succeeds_iff _).mp ⟨_, accepted⟩⟩, refused, ?_⟩
  intro acceptable
  obtain ⟨code, run⟩ := (compile_succeeds_iff _).mpr acceptable
  cases refused.symm.trans run

end JackVm

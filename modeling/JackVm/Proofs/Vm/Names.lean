import JackVm.Proofs.Compilation.Translation
import JackVm.Proofs.Syntax.Mention
import JackVm.Proofs.Translation.Instructions
import JackVm.Proofs.Vm.Text

/-!
# The names of compiled code

Each function that compiled code begins or calls has a name of two words with a dot between them:
the words are names of the source, or those of the library. The text of compiled code is therefore
enough to tell its instructions.
-/

namespace JackVm

/-- Whether a text is a word with something in it. -/
structure IsName (text : String) : Prop where
  nonempty : text ≠ ""
  word : IsWord text

theorem isName_of_isIdentifier {text : String} (h : isIdentifier text) : IsName text where
  nonempty := by
    rintro rfl
    cases h
  word := isWord_of_isIdentifier h

theorem isName_spelling (k : Keyword) : IsName k.spelling where
  nonempty := by cases k <;> decide
  word := isWord_spelling k

/-- Whether a text is two names with a dot between them. -/
def IsQualified (text : String) : Prop :=
  ∃ first second, IsName first ∧ IsName second ∧ text = first ++ "." ++ second

theorem isQualified_library (first second : String) (qualifier : first ∈ libraryNames)
    (name : second ∈ libraryNames) : IsQualified (first ++ "." ++ second) := by
  have identifiers : ∀ name ∈ libraryNames, isIdentifier name := by decide
  exact ⟨first, second, isName_of_isIdentifier (identifiers first qualifier),
    isName_of_isIdentifier (identifiers second name), rfl⟩

theorem IsWord.newline_not_mem {text : String} (h : IsWord text) : '\n' ∉ text.toList := by
  intro newline
  exact absurd (h '\n' newline) (by decide)

theorem IsQualified.newline_not_mem {text : String} (h : IsQualified text) :
    '\n' ∉ text.toList := by
  obtain ⟨first, second, qualifier, name, rfl⟩ := h
  simp [qualifier.word.newline_not_mem, name.word.newline_not_mem]

theorem newline_not_mem_label {number : Nat} {name : String} (h : name ∈ labelsNumbered number) :
    '\n' ∉ name.toList := by
  have digits : '\n' ∉ number.repr.toList := not_mem_repr rfl number
  rw [Nat.toList_repr] at digits
  simp only [labelsNumbered, List.mem_cons, List.not_mem_nil, or_false] at h
  obtain rfl | rfl | rfl | rfl | rfl := h <;>
    simp [Compilation.ifTrueLabel, Compilation.ifFalseLabel, Compilation.ifEndLabel,
      Compilation.whileStartLabel, Compilation.whileEndLabel, digits]

/-- Whether the name of an instruction is qualified if it is that of a function, and else lies on
one line. -/
def Instruction.WellNamed : Instruction → Prop
  | .function name _ | .call name _ => IsQualified name
  | .label name | .goto name | .ifGoto name => '\n' ∉ name.toList
  | .push _ _ | .pop _ _ | .arithmetic _ | .return => True

theorem Instruction.WellNamed.onOneLine {i : Instruction} (h : i.WellNamed) : i.OnOneLine := by
  intro name named
  cases i with
  | function | call =>
    cases named
    exact h.newline_not_mem
  | label | goto | ifGoto =>
    cases named
    exact h
  | push | pop | arithmetic | «return» => cases named

/-! ## Names of a tree -/

/-- Whether the identifiers of a text are spelled like identifiers. -/
def Spelled (lexemes : List Lexeme) : Prop :=
  ∀ name, .identifier name ∈ lexemes → isIdentifier name

theorem TypeName.isName_text {t : TypeName} {lexemes : List Lexeme} (spelled : Spelled lexemes)
    (h : t.lexeme ∈ lexemes) : IsName t.text := by
  cases t with
  | int => exact isName_spelling .int
  | char => exact isName_spelling .char
  | boolean => exact isName_spelling .boolean
  | named name => exact isName_of_isIdentifier (spelled name h)

/-- Whether a declaration has a type that stands in a text. -/
def Declaration.TypeIn (lexemes : List Lexeme) (x : Declaration) : Prop :=
  ∃ t : TypeName, x.type = t.text ∧ t.lexeme ∈ lexemes

theorem VariableGroup.typeIn {g : VariableGroup} {lexemes : List Lexeme}
    (sub : g.lexemes ⊆ lexemes) (kind : VariableKind) :
    ∀ x ∈ g.declarations kind, x.TypeIn lexemes := by
  intro x hx
  obtain ⟨name, -, rfl⟩ := List.mem_map.mp hx
  exact ⟨g.type, rfl, sub List.mem_cons_self⟩

theorem SubroutineDec.typeIn (d : SubroutineDec) : ∀ x ∈ d.named, x.TypeIn d.lexemes := by
  intro x hx
  rcases List.mem_append.mp hx with hx | hx
  · obtain ⟨p, hp, rfl⟩ := List.mem_map.mp hx
    exact ⟨p.type, rfl, parameter_subset hp List.mem_cons_self⟩
  · obtain ⟨g, hg, hx⟩ := List.mem_flatMap.mp hx
    exact g.typeIn (varDec_subset hg) .local x hx

theorem ClassDec.typeIn (c : ClassDec) : ∀ x ∈ c.declarations, x.TypeIn c.lexemes := by
  intro x hx
  obtain ⟨v, hv, hx⟩ := List.mem_flatMap.mp hx
  have inside : v.group.lexemes ⊆ c.lexemes :=
    fun _ hl => varDec_subset hv (List.mem_cons_of_mem _ hl)
  exact v.group.typeIn inside v.storage.kind x hx

theorem exists_declaration_of_variableNamed? {declarations : List Declaration} {name : String}
    {v : Variable} (h : variableNamed? declarations name = some v) :
    ∃ x ∈ declarations, v.type = x.type := by
  have among (earlier l : List Declaration) :
      ∀ v ∈ numbered earlier l, ∃ x ∈ l, v.type = x.type := by
    induction l generalizing earlier with
    | nil => simp [numbered]
    | cons x l ih =>
      intro v hv
      rcases List.mem_cons.mp hv with rfl | hv
      · exact ⟨x, List.mem_cons_self, rfl⟩
      · obtain ⟨y, hy, same⟩ := ih _ v hv
        exact ⟨y, List.mem_cons_of_mem _ hy, same⟩
  exact among [] declarations v (List.mem_of_find?_eq_some h)

section
variable {c : ClassDec} {d : SubroutineDec} (spelled : Spelled c.lexemes) (hd : d ∈ c.subroutines)
include spelled

theorem ClassDec.isName_name : IsName c.name :=
  isName_of_isIdentifier (spelled c.name (by simp [lexemes]))

include hd

theorem SubroutineDec.isName_name : IsName d.name :=
  isName_of_isIdentifier (spelled d.name (c.subset_lexemes hd (by simp [lexemes])))

theorem SubroutineDec.isName_type {name : String} {v : Variable}
    (h : (d.environment c).find? name = some v) : IsName v.type := by
  rcases Option.or_eq_some_iff.mp h with inner | ⟨-, outer⟩
  · obtain ⟨x, hx, same⟩ := exists_declaration_of_variableNamed? inner
    rw [same]
    rcases List.mem_append.mp hx with hx | hx
    · cases form : d.form with
      | method =>
        rw [form, SubroutineForm.receiver, List.mem_singleton] at hx
        rw [hx]
        exact c.isName_name spelled
      | function | constructor =>
        rw [form] at hx
        cases hx
    · obtain ⟨t, type, mem⟩ := d.typeIn x hx
      exact type ▸ t.isName_text spelled (c.subset_lexemes hd mem)
  · obtain ⟨x, hx, same⟩ := exists_declaration_of_variableNamed? outer
    obtain ⟨t, type, mem⟩ := c.typeIn x hx
    rw [same, type]
    exact t.isName_text spelled mem

theorem SubroutineDec.isQualified_target {callee : Callee} {count : Nat}
    (used : .call callee count ∈ statementUses d.body) :
    IsQualified ((d.environment c).target callee) := by
  have named (name : String) (mem : .identifier name ∈ callee.lexemes) : IsName name :=
    isName_of_isIdentifier (spelled name (c.subset_lexemes hd (d.mentions _ used mem)))
  cases callee with
  | own name =>
    have method : IsName name := named name (by simp [Callee.lexemes, Callee.head])
    exact ⟨c.name, name, c.isName_name spelled, method, rfl⟩
  | qualified qualifier name =>
    have method : IsName name := named name (by simp [Callee.lexemes, Callee.tail])
    rw [Environment.target]
    split
    · next v found => exact ⟨v.type, name, isName_type spelled hd found, method, rfl⟩
    · exact ⟨qualifier, name, named qualifier (by simp [Callee.lexemes, Callee.head]), method, rfl⟩

end

/-! ## Instructions are well named -/

theorem ExpressionInstruction.wellNamed {env : Environment} {uses : List Use} {i : Instruction}
    (h : ExpressionInstruction env uses i)
    (targets : ∀ callee count, .call callee count ∈ uses → IsQualified (env.target callee)) :
    i.WellNamed := by
  cases h with
  | integer | length | character | zero | load | object | select | element | operate => trivial
  | library listed =>
    simp only [libraryCalls, List.mem_cons, List.not_mem_nil, or_false] at listed
    obtain rfl | rfl | rfl | rfl := listed
    · exact isQualified_library "Math" "multiply" (by decide) (by decide)
    · exact isQualified_library "Math" "divide" (by decide) (by decide)
    · exact isQualified_library "String" "new" (by decide) (by decide)
    · exact isQualified_library "String" "appendChar" (by decide) (by decide)
  | call used => exact targets _ _ used

theorem StatementInstruction.wellNamed {env : Environment} {uses : List Use} {i : Instruction}
    (h : StatementInstruction env uses i)
    (targets : ∀ callee count, .call callee count ∈ uses → IsQualified (env.target callee)) :
    i.WellNamed := by
  cases h with
  | expression h => exact h.wellNamed targets
  | store | keep | kept | assign | «return» => trivial
  | label number numbered | goto number numbered | ifGoto number numbered =>
    exact newline_not_mem_label numbered

theorem SubroutineForm.wellNamed_prologue (form : SubroutineForm) (fields : Nat) :
    ∀ i ∈ Compilation.SubroutineForm.prologue fields form, i.WellNamed := by
  have allocation : IsQualified "Memory.alloc" :=
    isQualified_library "Memory" "alloc" (by decide) (by decide)
  cases form <;> simp [Compilation.SubroutineForm.prologue, Instruction.WellNamed, allocation]

theorem ClassDec.wellNamed {c : ClassDec} (spelled : Spelled c.lexemes) :
    ∀ i ∈ c.code, i.WellNamed := by
  intro i hi
  obtain ⟨d, hd, hi⟩ := List.mem_flatMap.mp hi
  rw [SubroutineDec.code, List.mem_append, List.mem_append, List.mem_singleton] at hi
  rcases hi with (begun | prologue) | body
  · rw [begun]
    exact ⟨c.name, d.name, c.isName_name spelled, d.isName_name spelled hd, rfl⟩
  · exact d.form.wellNamed_prologue c.fieldCount i prologue
  · exact (statementCode_is (d.environment c) 0 0 d.body i body).wellNamed
      fun _ _ used => SubroutineDec.isQualified_target spelled hd used

theorem compile_wellNamed {source : ByteArray} {code : Code} (h : compile source = .ok code) :
    ∀ i ∈ code.instructions, i.WellNamed := by
  obtain ⟨text, c, -, derives, -, instructions⟩ := compile_yields h
  rw [instructions]
  exact ClassDec.wellNamed fun name mem => isIdentifier_of_mem_sourceLexemes (derives ▸ mem)

/-- Code whose names each lie on one line is read back from its text, so the text is enough to tell
the instructions. This goes for all compiled code, in which the names of functions are qualified. -/
theorem code_text_decodes :
    (∀ code : Code, (∀ i ∈ code.instructions, i.OnOneLine) →
      Code.instructionsOf? code.text = some code.instructions) ∧
    (∀ a b : Code, (∀ i ∈ a.instructions, i.OnOneLine) → (∀ i ∈ b.instructions, i.OnOneLine) →
      a.text = b.text → a.instructions = b.instructions) ∧
    ∀ (source : ByteArray) (code : Code), compile source = .ok code →
      (∀ i ∈ code.instructions, i.OnOneLine) ∧
      ∀ name count, (.function name count ∈ code.instructions ∨
        .call name count ∈ code.instructions) → IsQualified name := by
  refine ⟨fun code => Code.instructionsOf?_text, ?_, ?_⟩
  · intro a b ha hb same
    have read := Code.instructionsOf?_text ha
    rw [same, Code.instructionsOf?_text hb] at read
    exact (Option.some.inj read).symm
  · intro source code h
    have named := compile_wellNamed h
    refine ⟨fun i hi => (named i hi).onOneLine, ?_⟩
    rintro name count (begun | called)
    · exact named _ begun
    · exact named _ called

theorem code_text_decodes_blank_names :
    (∃ code : Code, code.instructions = [.label "", .goto " 7 ", .ifGoto "push", .function "" 0,
        .call "a b 3" 12, .push .that 65536, .arithmetic .not, .return] ∧
      (∀ i ∈ code.instructions, i.OnOneLine) ∧
      Code.instructionsOf? code.text = some code.instructions) ∧
    ∃ source code, compile source = .ok code ∧ .call "B.g" 2 ∈ code.instructions ∧
      IsQualified "B.g" ∧ (∀ i ∈ code.instructions, i.OnOneLine) ∧
      Code.instructionsOf? code.text = some code.instructions := by
  obtain ⟨decodes, -, compiled⟩ := code_text_decodes
  constructor
  · have lines : ∀ i ∈ ([.label "", .goto " 7 ", .ifGoto "push", .function "" 0,
        .call "a b 3" 12, .push .that 65536, .arithmetic .not, .return] : List Instruction),
        i.OnOneLine := by
      simp [Instruction.OnOneLine, Instruction.name?]
    exact ⟨.ofRows [⟨.label "", 0⟩, ⟨.goto " 7 ", 0⟩, ⟨.ifGoto "push", 0⟩, ⟨.function "" 0, 0⟩,
      ⟨.call "a b 3" 12, 0⟩, ⟨.push .that 65536, 0⟩, ⟨.arithmetic .not, 0⟩, ⟨.return, 0⟩],
      rfl, lines, decodes _ lines⟩
  · have run : compile "class A \x7b method void f(B b) \x7b do b.g(1); return; \x7d \x7d".toUTF8 =
        .ok (.ofRows [⟨.function "A.f" 0, 1⟩, ⟨.push .argument 0, 1⟩, ⟨.pop .pointer 0, 1⟩,
          ⟨.push .argument 1, 1⟩, ⟨.push .constant 1, 1⟩, ⟨.call "B.g" 2, 1⟩, ⟨.pop .temp 0, 1⟩,
          ⟨.push .constant 0, 1⟩, ⟨.return, 1⟩]) := by
      rw [compile_ofList]
      decide +kernel
    obtain ⟨lines, names⟩ := compiled _ _ run
    exact ⟨_, _, run, by decide, names "B.g" 2 (.inr (by decide)), lines, decodes _ lines⟩

end JackVm

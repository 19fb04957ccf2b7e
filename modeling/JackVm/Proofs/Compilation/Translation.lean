import JackVm.Proofs.Compilation.ClassSound
import JackVm.Proofs.Compilation.Source
import JackVm.Proofs.Syntax.Unambiguity

/-!
# Compilation is translation of the tree

The compiler writes code while it reads, without a tree. What it has written in the end is the
code of the one tree that the text has.
-/

namespace JackVm

/-- A source that compiles has a valid tree, and the outcome is the tree's. -/
theorem finalState_yields {source : ByteArray} {traced : Bool} {t : CompilerState}
    (h : finalState source traced = .ok t) :
    ∃ (text : String) (c : ClassDec), String.fromUTF8? source = some text ∧
      c.lexemes = sourceLexemes text ∧ c.Valid ∧ Progress (.start text traced) c.output t := by
  obtain ⟨text, decoded, readable, run⟩ := finalState_eq_ok.mp h
  obtain ⟨c, valid, p, ended⟩ := Compilation.wholeClass_yields run
  refine ⟨text, c, decoded, ?_, valid, p⟩
  have takes := p.takes
  have window := p.window
  rw [c.lexemes_output] at takes window
  rw [CompilerState.window_start] at takes window
  have last : ((TokenStream.ofString text).toStream.get c.lexemes.length).lexeme =
      .endOfInput := by
    have place : t.peek = (TokenStream.ofString text).toStream.get c.lexemes.length := by
      rw [← t.window_get_one, window, Stream'.get_drop]
      rfl
    rw [← place]
    exact Lexeme.kind_eq_endOfInput.mp ended
  exact ((takes_all_iff (endOfInput_not_mem_sourceLexemes text) c.terminals _).mp
    ⟨readable, takes, last⟩).symm

theorem compile_yields {source : ByteArray} {code : Code} (h : compile source = .ok code) :
    ∃ (text : String) (c : ClassDec), String.fromUTF8? source = some text ∧
      c.lexemes = sourceLexemes text ∧ c.Valid ∧ code.instructions = c.code := by
  obtain ⟨t, run, rfl⟩ := compile_eq_ok.mp h
  obtain ⟨text, c, decoded, derives, valid, p⟩ := finalState_yields run
  refine ⟨text, c, decoded, derives, valid, ?_⟩
  rw [p.instructions, c.code_output]
  rfl

/-- Whatever compiles has exactly one syntax tree, and the instructions are the code of that
tree. -/
theorem compile_eq_code_of_tree (source : ByteArray) (code : Code)
    (h : compile source = .ok code) :
    ∃ text, String.fromUTF8? source = some text ∧
      (∃! c : ClassDec, c.lexemes = sourceLexemes text) ∧
      ∀ c : ClassDec, c.lexemes = sourceLexemes text → code.instructions = c.code := by
  obtain ⟨text, c, decoded, derives, -, instructions⟩ := compile_yields h
  have unique (c' : ClassDec) (derives' : c'.lexemes = sourceLexemes text) : c' = c :=
    ClassDec.lexemes_injective (derives'.trans derives.symm)
  refine ⟨text, decoded, ⟨c, derives, unique⟩, fun c' derives' => ?_⟩
  rw [unique c' derives']
  exact instructions

/-- A class with every kind of subroutine, statement, term and operator. -/
def manifoldSource : String :=
  "class P \x7b
    static int s;
    field Array x, y;
    constructor P new(int a) \x7b let x = a; return this; \x7d
    method int f(int i) \x7b
      var Array b;
      while (i < 010) \x7b
        let b[i + 1] = y[i] * 32767;
        if (~(s > -i)) \x7b do g(b, 0); \x7d
      \x7d
      if (true & x | null) \x7b let b = \"é\"; \x7d else \x7b do b.m(); \x7d
      return P.h(i - 2, false) / 3;
    \x7d
    function void h() \x7b let s = 4 + 5 * 6 = 7; return; \x7d
  \x7d"

def manifoldCode : List Instruction :=
  [.function "P.new" 0, .push .constant 2, .call "Memory.alloc" 1, .pop .pointer 0,
    .push .argument 0, .pop .this 0, .push .pointer 0, .return, .function "P.f" 1,
    .push .argument 0, .pop .pointer 0, .label "WHILE_EXP0", .push .argument 1, .push .constant 10,
    .arithmetic .lt, .arithmetic .not, .ifGoto "WHILE_END0", .push .argument 1, .push .constant 1,
    .arithmetic .add, .push .local 0, .arithmetic .add, .push .argument 1, .push .this 1,
    .arithmetic .add, .pop .pointer 1, .push .that 0, .push .constant 32767,
    .call "Math.multiply" 2, .pop .temp 0, .pop .pointer 1, .push .temp 0, .pop .that 0,
    .push .static 0, .push .argument 1, .arithmetic .neg, .arithmetic .gt, .arithmetic .not,
    .ifGoto "IF_TRUE0", .goto "IF_FALSE0", .label "IF_TRUE0", .push .pointer 0, .push .local 0,
    .push .constant 0, .call "P.g" 3, .pop .temp 0, .label "IF_FALSE0", .goto "WHILE_EXP0",
    .label "WHILE_END0", .push .constant 0, .arithmetic .not, .push .this 0, .arithmetic .and,
    .push .constant 0, .arithmetic .or, .ifGoto "IF_TRUE1", .goto "IF_FALSE1", .label "IF_TRUE1",
    .push .constant 1, .call "String.new" 1, .push .constant 233, .call "String.appendChar" 2,
    .pop .local 0, .goto "IF_END1", .label "IF_FALSE1", .push .local 0, .call "Array.m" 1,
    .pop .temp 0, .label "IF_END1", .push .argument 1, .push .constant 2, .arithmetic .sub,
    .push .constant 0, .call "P.h" 2, .push .constant 3, .call "Math.divide" 2, .return,
    .function "P.h" 0, .push .constant 4, .push .constant 5, .arithmetic .add, .push .constant 6,
    .call "Math.multiply" 2, .push .constant 7, .arithmetic .eq, .pop .static 0, .push .constant 0,
    .return]

theorem compile_eq_code_of_tree_manifold :
    ∃ code, compile manifoldSource.toUTF8 = .ok code ∧ code.instructions = manifoldCode ∧
      ∃ text, String.fromUTF8? manifoldSource.toUTF8 = some text ∧
        (∃! c : ClassDec, c.lexemes = sourceLexemes text) ∧
        ∀ c : ClassDec, c.lexemes = sourceLexemes text → manifoldCode = c.code := by
  have run : (compile manifoldSource.toUTF8).map Code.instructions = .ok manifoldCode := by
    rw [manifoldSource, compile_ofList]
    decide +kernel
  cases compiled : compile manifoldSource.toUTF8 with
  | error e =>
    rw [compiled] at run
    cases run
  | ok code =>
    rw [compiled] at run
    have same : code.instructions = manifoldCode := Except.ok.inj run
    exact ⟨code, rfl, same, same ▸ compile_eq_code_of_tree _ _ compiled⟩

end JackVm

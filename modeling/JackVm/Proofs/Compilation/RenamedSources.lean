import JackVm.Proofs.Compilation.ClassLockstep
import JackVm.Proofs.Compilation.Source

/-!
# Sources that differ by a renaming

White space, comments and line breaks leave no mark in the instructions, and neither do the
spellings of names, except where a function is defined or called. So two sources with the same
tokens up to a renaming have the same instructions up to that renaming, or the same error.
-/

namespace JackVm

/-- Two outcomes of which both are codes with the same instructions up to a renaming, or both are
errors of the same kind. -/
def OutcomesCorrespond (r : Renaming) (Pairs : Token → Token → Prop) :
    Except CompileError Code → Except CompileError Code → Prop
  | .ok code, .ok code' => code'.instructions = code.instructions.map (Instruction.rename r)
  | .error e, .error e' => e.Corresponds r Pairs e'
  | _, _ => False

variable {r : Renaming} {text text' : String}

/-- Tokens in the same place of two texts, of which the second has the lexeme of the first up to a
renaming. -/
def TokensCorrespond (r : Renaming) (text text' : String) (t t' : Token) : Prop :=
  (t, t') ∈ (TokenStream.ofString text).toList.zip (TokenStream.ofString text').toList ∧
    t'.lexeme = t.lexeme.rename r

private theorem forall₂_toList
    (renamed : sourceLexemes text' = (sourceLexemes text).map (Lexeme.rename r)) :
    List.Forall₂ (TokensCorrespond r text text') (TokenStream.ofString text).toList
      (TokenStream.ofString text').toList := by
  rw [sourceLexemes, sourceLexemes, List.map_map, eq_comm, ← List.forall₂_eq_eq_eq,
    List.forall₂_map_left_iff, List.forall₂_map_right_iff] at renamed
  have lexemes : List.Forall₂ (fun t t' : Token => t'.lexeme = t.lexeme.rename r)
      (TokenStream.ofString text).toList (TokenStream.ofString text').toList :=
    List.rel_append (renamed.imp fun _ _ same => same.symm) (.cons rfl .nil)
  rw [List.forall₂_iff_zip] at lexemes ⊢
  exact ⟨lexemes.1, fun mem => ⟨mem, lexemes.2 mem⟩⟩

namespace Correspondence

def ofTexts (r : Renaming) (text text' : String) : Correspondence where
  names := r
  Pairs := TokensCorrespond r text text'
  lexeme_eq pair := pair.2
  isIdentifier {t _ _} pair named := by
    have mem : t ∈ (TokenStream.ofString text).toList := (List.of_mem_zip pair.1).1
    rw [TokenStream.toList, List.mem_append] at mem
    cases mem with
    | inl mem =>
      have lexeme : t.lexeme ∈ sourceLexemes text := List.mem_map_of_mem mem
      exact isIdentifier_of_mem_sourceLexemes (named ▸ lexeme)
    | inr atEnd =>
      rw [List.mem_singleton.mp atEnd] at named
      cases named

theorem streams_ofTexts
    (renamed : sourceLexemes text' = (sourceLexemes text).map (Lexeme.rename r)) :
    (ofTexts r text text').Streams (TokenStream.ofString text) (TokenStream.ofString text') := by
  have places := forall₂_toList renamed
  rw [TokenStream.toList, TokenStream.toList] at places
  have length : (TokenStream.ofString text').upcoming.length =
      (TokenStream.ofString text).upcoming.length := by
    simpa using places.length_eq.symm
  have upcoming := List.forall₂_take_append _ _ _ places
  have atEnd := List.forall₂_drop_append _ _ _ places
  rw [length, List.take_left] at upcoming
  rw [length, List.drop_left] at atEnd
  cases atEnd with
  | cons pair _ => exact ⟨upcoming, pair⟩

theorem abreast_start
    (renamed : sourceLexemes text' = (sourceLexemes text).map (Lexeme.rename r)) :
    (ofTexts r text text').Abreast (.start text false) (.start text' false) where
  peek := (streams_ofTexts renamed).next.1
  input := (streams_ofTexts renamed).next.2
  className := ⟨(r.apply_of_not rfl).symm, fun _ mem => nomatch mem⟩
  scopes := ⟨.empty _, .empty _⟩
  code := .empty _
  ifLabels := rfl
  whileLabels := rfl

theorem Agree.outcomes {k : Correspondence}
    {x x' : EStateM.Result CompileError CompilerState Unit} (h : k.Agree Eq x x') :
    OutcomesCorrespond k.names k.Pairs ((Compilation.outcome x).map CompilerState.code)
      ((Compilation.outcome x').map CompilerState.code) := by
  cases h with
  | ok _ states => exact states.code.instructions
  | error errors _ => exact errors

end Correspondence

/-- If two sources have the same tokens up to a renaming, then both compile or neither does. The
instructions are the same up to the renaming, and so are the errors but for their lines, which are
those of tokens in the same place. -/
theorem compile_renamed (r : Renaming) (source source' : ByteArray) (text text' : String)
    (decoded : String.fromUTF8? source = some text)
    (decoded' : String.fromUTF8? source' = some text')
    (renamed : sourceLexemes text' = (sourceLexemes text).map (Lexeme.rename r)) :
    OutcomesCorrespond r (TokensCorrespond r text text') (compile source)
      (compile source') := by
  have first := (Correspondence.streams_ofTexts renamed).next.1
  have kinds : (TokenStream.ofString text').next.1.kind = (TokenStream.ofString text).next.1.kind :=
    Correspondence.kind_eq first
  rw [compile, compile]
  -- Before the first step the window holds no token of the text, so this step is taken by hand.
  by_cases readable : (TokenStream.ofString text).next.1.Readable
  · have readable' : (TokenStream.ofString text').next.1.Readable := by
      rw [Token.Readable, kinds]
      exact readable
    rw [finalState_of_readable decoded readable, finalState_of_readable decoded' readable']
    exact (Correspondence.abreast_start renamed).wholeClass.outcomes
  · obtain ⟨f, fault⟩ := Token.exists_fault readable
    have fault' : (TokenStream.ofString text').next.1.lexeme = .fault f := by
      rw [Correspondence.lexeme_eq _ first, fault]
      rfl
    rw [finalState_of_fault decoded fault, finalState_of_fault decoded' fault']
    exact .unreadable first fault

theorem compile_renamed_exchange :
    ∃ (r : Renaming) (text text' : String) (code code' : Code),
      sourceLexemes text' = (sourceLexemes text).map (Lexeme.rename r) ∧
      compile text.toUTF8 = .ok code ∧ compile text'.toUTF8 = .ok code' ∧
      code'.instructions = code.instructions.map (Instruction.rename r) ∧
      code'.instructions = [.function "Q.f" 0, .push .argument 0, .pop .pointer 0,
        .push .this 0, .push .argument 1, .push .argument 1, .call "Q.f" 2,
        .call "Math.multiply" 2, .return] := by
  let r : Renaming := .exchange ⟨"P", by decide⟩ ⟨"Q", by decide⟩ (by decide) (by decide)
  let text := "class P \x7b field int x; method int f(P p) \x7b return x * p.f(p); \x7d \x7d"
  let text' := "class Q \x7b // names\n field int x; /* the field */
    method int f(Q p) \x7b return x*p.f(p); \x7d\n\x7d"
  have renamed : sourceLexemes text' = (sourceLexemes text).map (Lexeme.rename r) := by
    decide +kernel
  have run : compile text.toUTF8 =
      .ok (.ofRows [⟨.function "P.f" 0, 1⟩, ⟨.push .argument 0, 1⟩, ⟨.pop .pointer 0, 1⟩,
        ⟨.push .this 0, 1⟩, ⟨.push .argument 1, 1⟩, ⟨.push .argument 1, 1⟩, ⟨.call "P.f" 2, 1⟩,
        ⟨.call "Math.multiply" 2, 1⟩, ⟨.return, 1⟩]) := by
    rw [compile_ofList]
    decide +kernel
  have run' : compile text'.toUTF8 =
      .ok (.ofRows [⟨.function "Q.f" 0, 3⟩, ⟨.push .argument 0, 3⟩, ⟨.pop .pointer 0, 3⟩,
        ⟨.push .this 0, 3⟩, ⟨.push .argument 1, 3⟩, ⟨.push .argument 1, 3⟩, ⟨.call "Q.f" 2, 3⟩,
        ⟨.call "Math.multiply" 2, 3⟩, ⟨.return, 3⟩]) := by
    rw [compile_ofList]
    decide +kernel
  have same := compile_renamed r text.toUTF8 text'.toUTF8 text text' (fromUTF8?_toUTF8 text)
    (fromUTF8?_toUTF8 text') renamed
  rw [run, run'] at same
  exact ⟨r, text, text', _, _, renamed, run, run', same, rfl⟩

end JackVm

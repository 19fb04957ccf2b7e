import JackVm.Compile
import JackVm.Proofs.Compilation.ClassLockstep
import JackVm.Proofs.Compilation.Source

/-!
# Sessions

A caller can drive a compilation by hand, one call after the other, and go on after errors. What the
caller sees of a session is whether each call failed and how, the name of the class after each
call, and the code in the end. None of it depends on whether the session is traced.
-/

namespace JackVm

/-- What can be asked of a compilation. -/
inductive Call where
  | advance
  | wholeClass
  deriving DecidableEq, Repr

def Call.compilation : Call → Compilation Unit
  | advance => Compilation.advance
  | wholeClass => Compilation.wholeClass

/-- What a caller sees of one call. -/
structure Answer where
  error : Option CompileError
  className : String
  deriving DecidableEq, Repr

/-- What a caller sees of a result, with the state to go on from. -/
def Answer.ofResult : EStateM.Result CompileError CompilerState Unit → Answer × CompilerState
  | .ok () s => (⟨none, s.className⟩, s)
  | .error e s => (⟨some e, s.className⟩, s)

def Call.answer (call : Call) (s : CompilerState) : Answer × CompilerState :=
  Answer.ofResult (call.compilation s)

/-- Makes one call after the other, whether they fail or not. -/
def session : List Call → CompilerState → List Answer × CompilerState
  | [], s => ([], s)
  | call :: calls, s =>
    let (answer, s) := call.answer s
    let (answers, s) := session calls s
    (answer :: answers, s)

namespace Correspondence

def identity : Correspondence where
  names := .identity
  Pairs t t' := t' = t ∧ ∀ name, t.lexeme = .identifier name → JackVm.isIdentifier name
  lexeme_eq := by
    rintro t _ ⟨rfl, -⟩
    exact (Lexeme.rename_identity _).symm
  isIdentifier := by
    rintro t _ name ⟨-, named⟩ lexeme
    exact named name lexeme

theorem eq_of_lines_identity {m n : UInt32} (h : identity.Lines m n) : m = n := by
  obtain ⟨t, t', ⟨same, -⟩, rfl, rfl⟩ := h
  rw [same]

theorem eq_of_errors_identity {e e' : CompileError} (h : identity.Errors e e') : e' = e := by
  cases h with
  | atToken problem pair => rw [pair.1]; exact congrArg _ (Problem.rename_identity problem)
  | unreadable pair found => rw [pair.1]

variable {s s' : CompilerState}

theorem code_eq (h : identity.Abreast s s') : s'.code = s.code := by
  have lines : s.code.lines = s'.code.lines := by
    rw [← List.forall₂_eq_eq_eq]
    exact h.code.lines.imp fun _ _ => eq_of_lines_identity
  refine Code.ext_lists (h.code.instructions.trans ?_) lines.symm
  exact (List.map_congr_left fun i _ => Instruction.rename_identity i).trans (List.map_id' _)

theorem className_eq (h : identity.Abreast s s') : s'.className = s.className :=
  h.className.renamed.trans (Renaming.identity_apply _)

theorem abreast_ofString (text : String) (traced traced' : Bool) :
    identity.Abreast (.ofString text traced) (.ofString text traced') where
  peek := ⟨rfl, fun _ named => nomatch named⟩
  input := by
    refine ⟨List.forall₂_same.mpr fun t mem => ⟨rfl, fun name named => ?_⟩,
      rfl, fun _ named => nomatch named⟩
    have lexeme : t.lexeme ∈ sourceLexemes text := List.mem_map_of_mem mem
    exact isIdentifier_of_mem_sourceLexemes (named ▸ lexeme)
  className := ⟨(Renaming.identity_apply _).symm, fun _ mem => nomatch mem⟩
  scopes := ⟨.empty _, .empty _⟩
  code := .empty _
  ifLabels := rfl
  whileLabels := rfl

theorem Abreast.compilation {k : Correspondence} (h : k.Abreast s s') (call : Call) :
    k.Agree Eq (call.compilation s) (call.compilation s') := by
  cases call with
  | advance => exact h.advance
  | wholeClass => exact h.wholeClass

theorem Agree.answer {r r' : EStateM.Result CompileError CompilerState Unit}
    (h : identity.Agree Eq r r') :
    (Answer.ofResult r').1 = (Answer.ofResult r).1 ∧
      identity.Abreast (Answer.ofResult r).2 (Answer.ofResult r').2 := by
  cases h with
  | ok _ states =>
    refine ⟨?_, states.toAbreast⟩
    rw [Answer.ofResult, Answer.ofResult, className_eq states.toAbreast]
  | error errors states =>
    refine ⟨?_, states⟩
    rw [Answer.ofResult, Answer.ofResult, className_eq states, eq_of_errors_identity errors]

theorem Agree.outcome {r r' : EStateM.Result CompileError CompilerState Unit}
    (h : identity.Agree Eq r r') :
    (Compilation.outcome r').map CompilerState.code =
      (Compilation.outcome r).map CompilerState.code := by
  cases h with
  | ok _ states => exact congrArg Except.ok (code_eq states.toAbreast)
  | error errors _ => exact congrArg Except.error (eq_of_errors_identity errors)

theorem Abreast.session (calls : List Call) (h : identity.Abreast s s') :
    (session calls s').1 = (session calls s).1 ∧
      identity.Abreast (session calls s).2 (session calls s').2 := by
  induction calls generalizing s s' with
  | nil => exact ⟨rfl, h⟩
  | cons call calls ih =>
    have first := (h.compilation call).answer
    have rest := ih first.2
    exact ⟨congrArg₂ List.cons first.1 rest.1, rest.2⟩

end Correspondence

/-- A traced compilation of a source has the same outcome as one without a trace. -/
theorem compile_eq_compileTraced (source : ByteArray) :
    compile source = (compileTraced source).map Prod.fst := by
  have codes : compile source = (finalState source true).map CompilerState.code := by
    unfold compile
    cases decoded : String.fromUTF8? source with
    | none => simp [finalState, decoded]
    | some text =>
      have start := Correspondence.abreast_ofString text true false
      have agree := start.advance.andThen fun _ h => h.wholeClass
      rw [finalState_of_decoded decoded, finalState_of_decoded decoded]
      exact agree.outcome
  rw [codes, compileTraced]
  cases finalState source true <;> rfl

/-- Whether a session is traced shows neither in the answers nor in the code. -/
theorem tracing_never_shows :
    (∀ (text : String) (calls : List Call),
      (session calls (.ofString text false)).1 = (session calls (.ofString text true)).1 ∧
      (session calls (.ofString text false)).2.code =
        (session calls (.ofString text true)).2.code) ∧
    ∀ source : ByteArray, compile source = (compileTraced source).map Prod.fst := by
  refine ⟨fun text calls => ?_, compile_eq_compileTraced⟩
  have same := (Correspondence.abreast_ofString text true false).session calls
  exact ⟨same.1, Correspondence.code_eq same.2⟩

end JackVm

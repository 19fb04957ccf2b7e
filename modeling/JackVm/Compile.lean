import JackVm.Compilation.Class

/-!
# Compiling a source

A source in UTF-8 is one class. It is compiled as a whole or refused with one error; nothing
written before an error gets out.
-/

namespace JackVm

/-- The state in which the compilation of a source ends. -/
def finalState (source : ByteArray) (traced : Bool) : Except CompileError CompilerState :=
  match String.fromUTF8? source with
  | none => .error .notUtf8
  | some text =>
    let whole : Compilation Unit := do
      Compilation.advance
      Compilation.wholeClass
    match whole (.ofString text traced) with
    | .ok () s => .ok s
    | .error e _ => .error e

def compile (source : ByteArray) : Except CompileError Code :=
  (finalState source false).map CompilerState.code

/-- The code of a source together with the text of its grammar trace. -/
def compileTraced (source : ByteArray) : Except CompileError (Code × String) :=
  (finalState source true).map fun s => (s.code, (s.trace.getD {}).text)

end JackVm

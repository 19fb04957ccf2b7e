import JackVm.CommandLine.Run

/-!
# The command line

Runs on the files of the machine.
-/

namespace JackVm.CommandLine

/-- System codes may come negated. -/
def FileError.ofSystem : IO.Error → FileError
  | .noFileOrDirectory .. => .notFound
  | .inappropriateType _ code _ =>
    if code = 21 ∨ code = -21 then .isADirectory else .notADirectory
  | cause => .other (toString cause)

instance : FileSystem IO where
  isDirectory path := do
    if path.isEmpty then
      return false
    else
      ((← IO.currentDir) / path).isDir
  isFile path := do
    match ← ((← IO.currentDir) / path).metadata.toBaseIO with
    | .ok data => return data.type == .file
    | .error _ => return false
  entryNames path := do
    match ← ((← IO.currentDir) / path).readDir.toBaseIO with
    | .ok entries => return .ok (entries.map (·.fileName)).toList
    | .error e => return .error (.closed (FileError.ofSystem e))
  read path := do return (← (IO.FS.readBinFile path).toBaseIO).mapError FileError.ofSystem
  write path content := do
    return (← (IO.FS.writeBinFile path content).toBaseIO).mapError FileError.ofSystem

def helpText (_ : Bool) : String :=
  "Compile class files to stack machine code\n" ++
  "\n" ++
  "Usage: jackc [OPTIONS] <PATHS>...\n" ++
  "\n" ++
  "Options:\n" ++
  "      --emit <EMIT>  vm or trace [default: vm]\n" ++
  "      --stdout       Print results instead of writing them next to each source\n" ++
  "  -h, --help         Print help\n" ++
  "  -V, --version      Print version\n"

end JackVm.CommandLine

open JackVm.CommandLine in
def main (args : List String) : IO UInt32 := do
  match ← run (m := IO) helpText args with
  | .error e =>
    IO.eprintln ("error: " ++ e.message)
    return 2
  | .ok report =>
    IO.print report.output
    IO.eprint report.errors
    return report.exitCode.toUInt32

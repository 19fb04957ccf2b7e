import JackVm.CommandLine.Arguments
import JackVm.CommandLine.FileSystem
import JackVm.CommandLine.PathName
import JackVm.Compile

/-!
# Runs of the command line

A run collects its sources, reads them all, and then compiles them one by one. Nothing is written
unless every source could be read. A source that fails does not keep the others from their
results.
-/

namespace JackVm.CommandLine

inductive Failure where
  | unreadable (path : String) (error : FileError)
  | unlistable (directory : String) (error : ListingError)
  | noSources (directory : String)
  | unwritable (path : String) (error : FileError)
  deriving DecidableEq, Repr

def Failure.message : Failure → String
  | .unreadable path error => "Error: failed to read " ++ path ++ ": " ++ error.message
  | .unlistable directory (.closed error) =>
    "Error: failed to read directory " ++ directory ++ ": " ++ error.message
  | .unlistable _ (.interrupted error) => "Error: " ++ error.message
  | .noSources directory => "Error: no .jack files in " ++ directory
  | .unwritable path error => "Error: failed to write " ++ path ++ ": " ++ error.message

structure SourceFile where
  path : String
  content : ByteArray

/-- What a run has printed, and whether all went well. -/
structure Report where
  output : String := ""
  errors : String := ""
  succeeded : Bool := true
  deriving DecidableEq, Repr

namespace Report

def print (r : Report) (text : String) : Report :=
  { r with output := r.output ++ text }

/-- Reports an error on a line of its own. -/
def fail (r : Report) (message : String) : Report :=
  { r with errors := r.errors ++ message ++ "\n", succeeded := false }

def exitCode (r : Report) : Nat :=
  if r.succeeded then 0 else 1

end Report

def Product.of (product : Product) (source : ByteArray) : Except CompileError String :=
  match product with
  | .vm => (compile source).map Code.text
  | .trace => (compileTraced source).map (·.2)

section

variable {m : Type → Type} [Monad m] [FileSystem m]

/-- The sources that a path stands for: itself, or the sources in a directory, by name. -/
def sourcesAt (path : String) : m (Except Failure (List String)) := do
  if ← FileSystem.isDirectory path then
    match ← FileSystem.entryNames path with
    | .error e => return .error (.unlistable path e)
    | .ok names =>
      let candidates := names.filter (hasExtension · "jack")
      let sources ← candidates.filterM fun name => FileSystem.isFile (entryPath path name)
      if sources.isEmpty then
        return .error (.noSources path)
      else
        return .ok ((sources.mergeSort fun a b => decide (a ≤ b)).map (entryPath path))
  else
    return .ok [path]

def readSource (path : String) : m (Except Failure SourceFile) := do
  match ← FileSystem.read path with
  | .ok content => return .ok { path, content }
  | .error e => return .error (.unreadable path e)

/-- All sources of the given paths. Every path is looked at before any source is read. -/
def readSources (paths : List String) : m (Except Failure (List SourceFile)) :=
  ExceptT.run do
    let sources ← paths.mapM fun path => ExceptT.mk (sourcesAt (m := m) path)
    sources.flatten.mapM fun path => ExceptT.mk (readSource path)

def deliver (invocation : Invocation) (source : SourceFile) (text : String) (r : Report) :
    m Report := do
  if invocation.toStdout then
    return r.print text
  else
    let target := withExtension source.path invocation.product.extension
    match ← FileSystem.write target text.toUTF8 with
    | .ok () => return r
    | .error e => return r.fail (Failure.unwritable target e).message

/-- Compiles one source. Its path is named in an error if there are others. -/
def compileSource (invocation : Invocation) (named : Bool) (r : Report) (source : SourceFile) :
    m Report := do
  match invocation.product.of source.content with
  | .ok text => deliver invocation source text r
  | .error e => return r.fail (if named then source.path ++ ": " ++ e.message else e.message)

def runInvocation (invocation : Invocation) : m Report := do
  match ← readSources invocation.paths with
  | .error failure => return ({} : Report).fail failure.message
  | .ok sources => sources.foldlM (compileSource invocation (1 < sources.length)) {}

def versionText : String :=
  "jackc 0.1.0\n"

/-- Runs a command line, unless its arguments are refused. There is a short and a long text of
help. -/
def run (helpText : Bool → String) (args : List String) : m (Except UsageError Report) := do
  match Request.ofArguments args with
  | .error e => return .error e
  | .ok .version => return .ok (({} : Report).print versionText)
  | .ok (.help long) => return .ok (({} : Report).print (helpText long))
  | .ok (.compile invocation) => return .ok (← runInvocation invocation)

end

end JackVm.CommandLine

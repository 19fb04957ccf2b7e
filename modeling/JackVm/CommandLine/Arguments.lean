/-!
# Command-line arguments

Arguments are read from left to right. The first one that is wrong refuses the whole command
line, unless help or the version was asked for before it.
-/

namespace JackVm.CommandLine

inductive Product where
  | vm | trace
  deriving DecidableEq, Repr

def Product.name : Product → String
  | .vm => "vm"
  | .trace => "trace"

def Product.ofName? (name : String) : Option Product :=
  [Product.vm, .trace].find? fun p => p.name == name

/-- Files made from sources are named for what they hold. -/
def Product.extension (p : Product) : String :=
  p.name

structure Invocation where
  paths : List String
  product : Product := .vm
  /-- Whether results are printed and not written next to their sources. -/
  toStdout : Bool := false
  deriving DecidableEq, Repr

inductive Request where
  | compile (invocation : Invocation)
  | version
  | help (long : Bool)
  deriving DecidableEq, Repr

inductive UsageError where
  | noPath
  | emptyPath
  | unknownOption (option : String)
  | missingProduct
  | unknownProduct (name : String)
  | repeatedOption (option : String)
  deriving DecidableEq, Repr

def UsageError.message : UsageError → String
  | .noPath => "at least one path is required"
  | .emptyPath => "a path must not be empty"
  | .unknownOption option => "unexpected option '" ++ option ++ "'"
  | .missingProduct => "a value is required for '--emit'"
  | .unknownProduct name => "invalid value '" ++ name ++ "' for '--emit', expected vm or trace"
  | .repeatedOption option => "the option '" ++ option ++ "' cannot be used more than once"

/-- What one argument is by its form. -/
inductive Argument where
  | endOfOptions
  | version
  | help (long : Bool)
  | toStdout
  | emit
  | emitValue (value : String)
  | unknownOption
  | path
  deriving DecidableEq, Repr

/-- A single hyphen is a path. Short options may be run together, but the two there are act at
once. -/
def Argument.ofString (arg : String) : Argument :=
  if arg = "--" then .endOfOptions
  else if arg = "--version" then .version
  else if arg = "--help" then .help true
  else if arg = "--stdout" then .toStdout
  else if arg = "--emit" then .emit
  else
    match arg.toList with
    | '-' :: 'V' :: _ => .version
    | '-' :: 'h' :: _ => .help false
    | '-' :: '-' :: 'e' :: 'm' :: 'i' :: 't' :: '=' :: value => .emitValue (String.ofList value)
    | '-' :: _ :: _ => .unknownOption
    | _ => .path

/-- What the arguments read so far ask for. -/
structure Settings where
  /-- The latest path first. -/
  paths : List String := []
  product : Option Product := none
  toStdout : Bool := false
  deriving DecidableEq, Repr

namespace Settings

def addPath (s : Settings) (path : String) : Except UsageError Settings :=
  if path = "" then .error .emptyPath else .ok { s with paths := path :: s.paths }

def setProduct (s : Settings) (name : String) : Except UsageError Settings :=
  match Product.ofName? name, s.product with
  | none, _ => .error (.unknownProduct name)
  | some _, some _ => .error (.repeatedOption "--emit")
  | some product, none => .ok { s with product }

def setStdout (s : Settings) : Except UsageError Settings :=
  if s.toStdout then .error (.repeatedOption "--stdout") else .ok { s with toStdout := true }

def finish (s : Settings) : Except UsageError Request :=
  match s.paths with
  | [] => .error .noPath
  | paths => .ok (.compile
      { paths := paths.reverse, product := s.product.getD .vm, toStdout := s.toStdout })

/-- Reads the remaining arguments. A product's name may be an argument of its own, which must not
look like an option. -/
def read : List String → Settings → Except UsageError Request
  | [], s => s.finish
  | arg :: args, s =>
    match Argument.ofString arg with
    | .endOfOptions => do (← args.foldlM addPath s).finish
    | .version => .ok .version
    | .help long => .ok (.help long)
    | .toStdout => do read args (← s.setStdout)
    | .emitValue value => do read args (← s.setProduct value)
    | .emit =>
      match args with
      | [] => .error .missingProduct
      | value :: args =>
        match Argument.ofString value with
        | .path => do read args (← s.setProduct value)
        | _ => .error .missingProduct
    | .unknownOption => .error (.unknownOption arg)
    | .path => do read args (← s.addPath arg)

end Settings

def Request.ofArguments (args : List String) : Except UsageError Request :=
  Settings.read args {}

end JackVm.CommandLine

/-!
# File systems

What the command line needs of the place where files are. Paths are given as texts.
-/

namespace JackVm.CommandLine

inductive FileError where
  | notFound
  | notADirectory
  | isADirectory
  | other (cause : String)
  deriving DecidableEq, Repr

def FileError.message : FileError → String
  | .notFound => "No such file or directory (os error 2)"
  | .notADirectory => "Not a directory (os error 20)"
  | .isADirectory => "Is a directory (os error 21)"
  | .other cause => cause

inductive ListingError where
  /-- The directory cannot be opened. -/
  | closed (error : FileError)
  /-- An entry of the directory cannot be read. -/
  | interrupted (error : FileError)
  deriving DecidableEq, Repr

class FileSystem (m : Type → Type) where
  isDirectory : String → m Bool
  isFile : String → m Bool
  /-- The names in a directory, in any order. -/
  entryNames : String → m (Except ListingError (List String))
  read : String → m (Except FileError ByteArray)
  /-- Makes a file or replaces what it holds. -/
  write : String → ByteArray → m (Except FileError Unit)

end JackVm.CommandLine

import JackVm.CommandLine.FileSystem
import JackVm.CommandLine.PathName

/-!
# File trees

A file system as a value: the directories and files below the root, and the directory that relative
paths start from.
-/

namespace JackVm.CommandLine

inductive FileEntry where
  | directory
  | file (content : ByteArray)

structure FileTree where
  /-- Each place holds at most one entry. The root is not listed. -/
  entries : List (List String × FileEntry) := []
  /-- The place of the directory that relative paths start from. -/
  working : List String := []

/-- Where a path leads. -/
inductive Destination where
  | entry (place : List String) (content : FileEntry)
  /-- A name that is free in a directory. -/
  | free (place : List String)

namespace FileTree

def find? (t : FileTree) : List String → Option FileEntry
  | [] => some .directory
  | place => t.entries.lookup place

def put (t : FileTree) (place : List String) (content : FileEntry) : FileTree :=
  { t with entries := (place, content) :: t.entries.filter (·.1 ≠ place) }

def names (t : FileTree) (place : List String) : List String :=
  t.entries.filterMap fun (p, _) =>
    match p.getLast? with
    | some name => if p.dropLast = place then some name else none
    | none => none

/-- Follows one component of a path. Only a directory leads further. The root is above itself. -/
def step (t : FileTree) (here : Destination) (name : String) : Except FileError Destination :=
  match here with
  | .entry place .directory =>
    if name = "" ∨ name = "." then
      .ok here
    else if name = ".." then
      .ok (.entry place.dropLast .directory)
    else
      let place := place ++ [name]
      match t.find? place with
      | some content => .ok (.entry place content)
      | none => .ok (.free place)
  | .entry _ (.file _) => .error .notADirectory
  | .free _ => .error .notFound

/-- The place where a path starts. An absolute path starts from the root. -/
def start (t : FileTree) (path : String) : List String :=
  if path.toList.head? = some '/' then [] else t.working

/-- Follows a path from where it starts. The empty path leads nowhere. -/
def resolve (t : FileTree) (path : String) : Except FileError Destination :=
  if path = "" then
    .error .notFound
  else
    ((pathComponents path.toList).map String.ofList).foldlM t.step
      (.entry (t.start path) .directory)

def isDirectory (t : FileTree) (path : String) : Bool :=
  match t.resolve path with
  | .ok (.entry _ .directory) => true
  | _ => false

def isFile (t : FileTree) (path : String) : Bool :=
  match t.resolve path with
  | .ok (.entry _ (.file _)) => true
  | _ => false

def entryNames (t : FileTree) (path : String) : Except ListingError (List String) :=
  match t.resolve path with
  | .ok (.entry place .directory) => .ok (t.names place)
  | .ok (.entry _ (.file _)) => .error (.closed .notADirectory)
  | .ok (.free _) => .error (.closed .notFound)
  | .error e => .error (.closed e)

def read (t : FileTree) (path : String) : Except FileError ByteArray :=
  match t.resolve path with
  | .ok (.entry _ (.file content)) => .ok content
  | .ok (.entry _ .directory) => .error .isADirectory
  | .ok (.free _) => .error .notFound
  | .error e => .error e

def write (t : FileTree) (path : String) (content : ByteArray) : Except FileError FileTree :=
  match t.resolve path with
  | .ok (.entry place (.file _)) => .ok (t.put place (.file content))
  | .ok (.free place) => .ok (t.put place (.file content))
  | .ok (.entry _ .directory) => .error .isADirectory
  | .error e => .error e

end FileTree

instance : FileSystem (StateM FileTree) where
  isDirectory path := fun t => (t.isDirectory path, t)
  isFile path := fun t => (t.isFile path, t)
  entryNames path := fun t => (t.entryNames path, t)
  read path := fun t => (t.read path, t)
  write path content := fun t =>
    match t.write path content with
    | .ok t => (.ok (), t)
    | .error e => (.error e, t)

end JackVm.CommandLine

import CiPipelines.Files.Access
import CiPipelines.Files.Path

/-!
# File systems as values

A file system is a table of files and directories.  Paths are followed name by name, so each name
but the last must be that of a directory.  Reading changes nothing; writing replaces one file or
fails; creating directories adds directories only.
-/

namespace CiPipelines

/-- What a name stands for. -/
inductive FileEntry where
  | file (text : String)
  | directory
  deriving DecidableEq, Repr

/-- A place: the names that lead to it from the root. -/
abbrev Location := List String

/-- The files and directories below the root. -/
structure FileSystem where
  entries : List (Location × FileEntry)
  deriving DecidableEq, Repr

namespace FileSystem

/-- Nothing but the root. -/
def empty : FileSystem := ⟨[]⟩

/-- What is at a place. -/
def entry? (fs : FileSystem) (l : Location) : Option FileEntry :=
  if l.isEmpty then some .directory else fs.entries.lookup l

/-- The text of the file at a place. -/
def file? (fs : FileSystem) (l : Location) : Option String :=
  match fs.entry? l with
  | some (.file text) => some text
  | _ => none

/-- Puts an entry at a place. -/
def put (fs : FileSystem) (l : Location) (e : FileEntry) : FileSystem :=
  ⟨(l, e) :: fs.entries.filter fun old => old.1 != l⟩

/-- The file system with one more file, or directory for a path that ends in a slash, and all the
directories it lies in. -/
def withFile (fs : FileSystem) (path text : String) : FileSystem :=
  let names := Path.names path
  let parents := (List.range names.length).map fun n => names.take n
  let fs := (parents.filter fun l => (fs.entry? l).isNone).foldl
    (fun fs l => fs.put l .directory) fs
  fs.put names (if Path.asksForDirectory path then .directory else .file text)

/-- The place that a name leads to from another place, which must be a directory. -/
def enter (fs : FileSystem) (l : Location) (name : String) : Except OsError Location :=
  match fs.entry? l with
  | none => .error .notFound
  | some (.file _) => .error .notDirectory
  | some .directory => .ok (if name == ".." then l.dropLast else l ++ [name])

/-- The place that some names lead to; it need not exist. -/
def follow (fs : FileSystem) (names : List String) : Except OsError Location :=
  names.foldlM fs.enter []

/-- What a path leads to. -/
def find (fs : FileSystem) (path : String) : Except OsError (Location × FileEntry) := do
  if path.isEmpty then .error .notFound
  else
    let l ← fs.follow (Path.names path)
    match fs.entry? l with
    | none => .error .notFound
    | some (.file text) =>
      if Path.asksForDirectory path then .error .notDirectory else .ok (l, .file text)
    | some .directory => .ok (l, .directory)

/-- The text of the file at a path. -/
def readText (fs : FileSystem) (path : String) : Except OsError String := do
  match ← fs.find path with
  | (_, .file text) => .ok text
  | (_, .directory) => .error .isDirectory

/-- Whether a path leads to a file. -/
def isFile (fs : FileSystem) (path : String) : Bool :=
  match fs.find path with
  | .ok (_, .file _) => true
  | _ => false

/-- Whether a path leads to a directory. -/
def isDirectory (fs : FileSystem) (path : String) : Bool :=
  match fs.find path with
  | .ok (_, .directory) => true
  | _ => false

/-- Replaces or creates the file at a path, whose directory must exist. -/
def writeText (fs : FileSystem) (path text : String) : Except OsError FileSystem := do
  if path.isEmpty then .error .notFound
  else
    let names := Path.names path
    let parent ← fs.follow names.dropLast
    let l ← match names.getLast? with
      | some name => fs.enter parent name
      | none => .ok []
    match fs.entry? l with
    | some .directory => .error .isDirectory
    | some (.file _) | none =>
      if Path.asksForDirectory path then .error .isDirectory else .ok (fs.put l (.file text))

/-- Creates the directory at a path; the directory it lies in must exist. -/
def createDirectory (fs : FileSystem) (path : String) : Except OsError FileSystem := do
  let l ← fs.follow (Path.names path)
  match fs.entry? l with
  | some _ => .error .exists
  | none => .ok (fs.put l .directory)

/-- Creates a directory, after those it lies in where they are missing.  Returns the file system as
it is in the end, also after a failure. -/
def createDirectoriesFrom (fs : FileSystem) : Nat → String → Except OsError Unit × FileSystem
  | 0, _ => (.error .notFound, fs)
  | depth + 1, path =>
    match fs.createDirectory path with
    | .ok fs => (.ok (), fs)
    | .error .notFound =>
      match Path.parent? path with
      | none => (.error .notFound, fs)
      | some parent =>
        match createDirectoriesFrom fs depth parent with
        | (.error e, fs) => (.error e, fs)
        | (.ok (), fs) =>
          match fs.createDirectory path with
          | .ok fs => (.ok (), fs)
          | .error e => if fs.isDirectory path then (.ok (), fs) else (.error e, fs)
    -- A directory that is there already is as good as a new one.
    | .error e => if fs.isDirectory path then (.ok (), fs) else (.error e, fs)

/-- Creates a directory, after those it lies in where they are missing. -/
def createDirectories (fs : FileSystem) (path : String) : Except OsError Unit × FileSystem :=
  fs.createDirectoriesFrom (path.length + 1) path

/-- Access to the files of a file system that is the state of a computation. -/
def access : FileAccess (StateM FileSystem) where
  readText path := return (← get).readText path
  isFile path := return (← get).isFile path
  createDirectories path := modifyGet fun fs => fs.createDirectories path
  writeText path text := modifyGet fun fs =>
    match fs.writeText path text with
    | .ok written => (.ok (), written)
    | .error e => (.error e, fs)

end FileSystem
end CiPipelines

/-!
# Access to files

What the commands need of files, in any monad `m`: the program runs them on the disk, and they can
be run as well on a file system that is a plain value.
-/

namespace CiPipelines

/-- Why the system refuses. -/
inductive OsError where
  | notFound
  | exists
  | notDirectory
  | isDirectory
  | other (message : String)
  deriving DecidableEq, Repr

/-- The wording of a refusal. -/
def OsError.message : OsError → String
  | .notFound => "No such file or directory (os error 2)"
  | .exists => "File exists (os error 17)"
  | .notDirectory => "Not a directory (os error 20)"
  | .isDirectory => "Is a directory (os error 21)"
  | .other message => message

/-- What can be done with files. -/
structure FileAccess (m : Type → Type) where
  /-- The text of a file. -/
  readText : String → m (Except OsError String)
  /-- Whether a path leads to a file. -/
  isFile : String → m Bool
  /-- Creates a directory and those it lies in, as far as they are missing. -/
  createDirectories : String → m (Except OsError Unit)
  /-- Replaces or creates a file. -/
  writeText : String → String → m (Except OsError Unit)

end CiPipelines

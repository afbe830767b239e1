import CiPipelines.Text.Lines

/-!
# Paths

A path is a text with slashes.  Its names are what stands between the slashes, without empty ones
and single dots; two dots are kept, since what they mean depends on the directory before them.
-/

namespace CiPipelines
namespace Path

/-- The names of a path. -/
def names (path : String) : List String :=
  ((path.toList.splitOn '/').map String.ofList).filter fun n => n != "" && n != "."

/-- Whether a path can only mean a directory: it ends in a slash or a dot. -/
def asksForDirectory (path : String) : Bool :=
  match (path.toList.splitOn '/').getLast? with
  | some [] | some ['.'] => true
  | _ => false

/-- Removes slashes and `/.` from the end, given from its last character on. -/
def trimReversed : List Char → List Char
  | '.' :: '/' :: rest => trimReversed ('/' :: rest)
  | ['/'] => ['/']
  | '/' :: rest => trimReversed rest
  | text => text

/-- The directory that a path lies in, if it names one: all but its last name. -/
def parent? (path : String) : Option String :=
  let reversed := trimReversed path.toList.reverse
  let before := reversed.dropWhile (· != '/')
  let parent := String.ofList (trimReversed before).reverse
  if parent.isEmpty || reversed == ['/'] then none else some parent

example : parent? "./a/../b.yml" = some "./a/.." := by decide +kernel
example : parent? "f/x/" = some "f" := by decide +kernel
example : parent? "x.yml" = none := by decide +kernel

end Path
end CiPipelines

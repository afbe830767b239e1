import CiPipelines.CommandLine.Run

/-!
# The program

Runs a command line on the files of the disk.
-/

namespace CiPipelines

/-- The reason that the system gives for a refusal. -/
def OsError.ofIO : IO.Error → OsError
  | .noFileOrDirectory _ _ _ => .notFound
  | .alreadyExists _ _ _ => .exists
  | .inappropriateType _ 21 _ => .isDirectory
  | .inappropriateType _ _ _ => .notDirectory
  | e => .other (toString e)

/-- Runs an action that the system may refuse. -/
def refusable {α : Type} (action : IO α) : IO (Except OsError α) := do
  try return .ok (← action)
  catch e => return .error (OsError.ofIO e)

/-- Access to the files of the disk. -/
def diskAccess : FileAccess IO where
  readText path := refusable (IO.FS.readFile path)
  isFile path := do
    match ← refusable (IO.FS.readBinFile path) with
    | .ok _ => return true
    | .error _ => return false
  createDirectories path := refusable (IO.FS.createDirAll path)
  writeText path text := refusable (IO.FS.writeFile path text)

end CiPipelines

open CiPipelines

/-- Runs the command line and tells how it went. -/
def main (args : List String) : IO UInt32 := do
  let level ← IO.getEnv Settings.logLevelVariable
  let environment (name : String) : Option String :=
    if name == Settings.logLevelVariable then level else none
  let outcome ← CommandLine.run diskAccess environment args
  IO.print outcome.output
  match outcome.failure with
  | some f => IO.eprintln ("Error: " ++ f.message)
  | none => pure ()
  return outcome.exitCode.toUInt32

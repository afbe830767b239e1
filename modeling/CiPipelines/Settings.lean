import CiPipelines.Text.Blank

/-!
# Settings

What a reader assumes where a pipeline file says nothing, and how much is logged.
-/

namespace CiPipelines

/-- The settings of a run. -/
structure Settings where
  logLevel : String := "warn"
  /-- The runner of a job that names none. -/
  defaultRunner : String := "ubuntu-latest"
  /-- The branch whose pushes start a pipeline that names no event. -/
  defaultBranch : String := "main"
  deriving DecidableEq, Repr

namespace Settings

/-- The environment variable that sets the log level. -/
def logLevelVariable : String := "PIPECONV_LOG_LEVEL"

/-- The settings after the environment has been asked; a blank level is ignored. -/
def withEnvironment (s : Settings) (lookup : String → Option String) : Settings :=
  match lookup logLevelVariable with
  | some level => if Text.isBlank level.toList then s else { s with logLevel := level }
  | none => s

end Settings
end CiPipelines

import CiPipelines.CommandLine.Arguments
import CiPipelines.CommandLine.Failure
import CiPipelines.CommandLine.Table
import CiPipelines.Files.Path
import CiPipelines.Json.Printer
import CiPipelines.Stored.Yaml
import CiPipelines.Yaml.Printer

/-!
# Running commands

A run reads the settings first, then does what the command says.  It gives an exit code, a text
for the standard output and, after a failure, the reason.  Nothing is written unless the input has
been read and converted.  Texts that are generated from the description of the arguments are handed
to a run.
-/

namespace CiPipelines
namespace CommandLine

/-- What a run shows. -/
structure Outcome where
  exitCode : Nat
  output : String
  failure : Option Failure
  deriving DecidableEq, Repr

namespace Outcome

/-- A run that went well. -/
def success (output : String) : Outcome := ⟨0, output, none⟩

/-- A run that failed. -/
def failed (f : Failure) : Outcome := ⟨1, "", some f⟩

/-- A run whose arguments made no sense. -/
def misuse : Outcome := ⟨2, "", none⟩

end Outcome

/-- The settings file that is looked for when none is given. -/
def settingsFile : String := "pipeconv.yaml"

/-- The line that tells the version. -/
def versionLine : String := "pipeconv 0.1.0\n"

/-- Texts that are generated from the description of the arguments: how to use the program, and the
completions for a shell.  They are empty unless they are given. -/
structure GeneratedTexts where
  usage : String := ""
  completions : Shell → String := fun _ => ""

/-- A pipeline as text. -/
def renderPipeline (p : Pipeline) : RecordFormat → String
  | .yaml => Yaml.ofPipeline p
  | .json => Json.ofPipeline p

/-- A conversion that has been done. -/
structure Report where
  source : Platform
  target : Platform
  input : String
  output : String
  jobs : Nat
  steps : Nat
  deriving DecidableEq, Repr

/-- The line that tells of a conversion. -/
def Report.message (r : Report) : String :=
  "Converted " ++ r.input ++ " (" ++ r.source.productName ++ ") -> " ++ r.output ++ " ("
    ++ r.target.productName ++ "): " ++ toString r.jobs ++ " jobs, " ++ toString r.steps
    ++ " steps"

section Commands

variable {m : Type → Type} [Monad m]

/-- Runs that may end in a failure of type `ε`. -/
abbrev Attempt (m : Type → Type) (ε α : Type) := ExceptT ε m α

/-- A step that the system may refuse. -/
def attempt {ε α : Type} (x : m (Except OsError α)) (f : OsError → ε) : Attempt m ε α :=
  ExceptT.mk do return (← x).mapError f

/-- A step that needs no files. -/
def settle {ε δ α : Type} (x : Except δ α) (f : δ → ε) : Attempt m ε α :=
  ExceptT.mk (pure (x.mapError f))

/-- Loads a settings file. -/
def loadSettings (files : FileAccess m) (path : String) : Attempt m SettingsFailure Settings := do
  let text ← attempt (files.readText path) (.unreadable path)
  match Settings.ofYaml? text with
  | some s => return s
  | none => throw (.malformed path)

/-- Loads the settings file that is given, or else the usual one if it is there. -/
def findSettings (files : FileAccess m) (config : Option String) :
    Attempt m SettingsFailure Settings := do
  match config with
  | some path => loadSettings files path
  | none =>
    if ← ExceptT.lift (files.isFile settingsFile) then loadSettings files settingsFile
    else return {}

/-- The first of some paths that leads to a file. -/
def firstFile? (files : FileAccess m) : List String → m (Option String)
  | [] => return none
  | path :: rest => do
    if ← files.isFile path then return some path else firstFile? files rest

/-- The platform and file of the input.  A platform that is not given is told from the path, and a
path that is not given is one of the usual ones of the platform. -/
def findInput (files : FileAccess m) (source : Option Platform) (input : Option String) :
    Attempt m Failure (Platform × String) := do
  let platform ← match source, input with
    | some p, _ => pure p
    | none, some path =>
      match Platform.ofPath? path with
      | some p => pure p
      | none => throw (.undetectedInput path)
    | none, none => throw .noSource
  match input with
  | some path => return (platform, path)
  | none =>
    match ← ExceptT.lift (firstFile? files platform.usualPaths) with
    | some path => return (platform, path)
    | none => throw (.nothingFound platform)

/-- Reads a file as a pipeline of a platform. -/
def readPipeline (files : FileAccess m) (settings : Settings) (p : Platform) (path : String) :
    Attempt m FileFailure Pipeline := do
  settle (Conversion.require p .source) .conversion
  let text ← attempt (files.readText path) (.access path)
  settle (Conversion.read settings p text) .conversion

/-- Converts a file and writes the result to another one, with the directories it lies in. -/
def convertFile (files : FileAccess m) (settings : Settings) (source target : Platform)
    (input output : String) : Attempt m FileFailure Report := do
  -- Both platforms are settled before the input is opened.
  settle (Conversion.require source .source) .conversion
  settle (Conversion.require target .target) .conversion
  let pipeline ← readPipeline files settings source input
  let text ← settle (Conversion.write target pipeline) .conversion
  match Path.parent? output with
  | some parent => attempt (files.createDirectories parent) (.access parent)
  | none => pure ()
  attempt (files.writeText output text) (.access output)
  return ⟨source, target, input, output, pipeline.jobs.length, pipeline.stepCount⟩

/-- Converts a file and gives the result. -/
def convertToStdout (files : FileAccess m) (settings : Settings) (source target : Platform)
    (input : String) : Attempt m Failure String := do
  let text ← attempt (files.readText input) (.cannotRead input)
  settle (Conversion.convert settings source target text)
    fun e => .cannotConvert input (.conversion e)

/-- Writes completions to a file, with the directories it lies in. -/
def saveCompletions (files : FileAccess m) (text output : String) : Attempt m Failure Unit := do
  match Path.parent? output with
  | some parent => attempt (files.createDirectories parent) (.cannotCreate parent)
  | none => pure ()
  attempt (files.writeText output text) (.cannotSave output)

/-- Does what a command says and gives the text for the standard output. -/
def runCommand (files : FileAccess m) (texts : GeneratedTexts) (settings : Settings) :
    Command → Attempt m Failure String
  | .convert source target input output toStdout => do
    let (source, input) ← findInput files source input
    if toStdout then convertToStdout files settings source target input
    else
      let report ← (convertFile files settings source target input
        (output.getD target.usualPath)).adapt (.cannotConvert input)
      return report.message ++ "\n"
  | .inspect source input format => do
    let (source, input) ← findInput files source input
    let pipeline ← (readPipeline files settings source input).adapt (.cannotParse input)
    return renderPipeline pipeline format
  | .detect path =>
    match Platform.ofPath? path with
    | some p => return p.name ++ "\n"
    | none => throw (.undetected path)
  | .platforms => return platformTable
  | .completions shell none => return texts.completions shell
  | .completions shell (some output) => do
    saveCompletions files (texts.completions shell) output
    return ""

/-- Loads the settings and does what a command says. -/
def runInvocation (files : FileAccess m) (texts : GeneratedTexts)
    (environment : String → Option String) (i : Invocation) : Attempt m Failure String := do
  let settings ← (findSettings files i.config).adapt .settings
  runCommand files texts (settings.withEnvironment environment) i.command

/-- Runs a command line. -/
def run (files : FileAccess m) (environment : String → Option String) (args : List String)
    (texts : GeneratedTexts := {}) : m Outcome := do
  match Request.ofArguments args with
  | .showVersion => return .success versionLine
  | .showHelp => return .success texts.usage
  | .misuse => return .misuse
  | .run invocation =>
    match ← (runInvocation files texts environment invocation).run with
    | .ok output => return .success output
    | .error f => return .failed f

end Commands
end CommandLine
end CiPipelines

import CiPipelines.Jenkins.Line
import CiPipelines.Model.Pipeline
import CiPipelines.Settings

/-!
# Reading Jenkinsfiles

The `sh` steps of a Jenkinsfile become the steps of one job, in order.  The variables of its
`environment` blocks are the environment, and the first image of a `docker` block is the runner.
Nothing else is read, so any text is accepted.
-/

namespace CiPipelines
namespace Jenkins

/-- What the next line belongs to. -/
inductive Mode where
  | steps
  /-- An `environment` block with so many braces open. -/
  | environment (depth : Nat)
  /-- A command of several lines; those so far, last first. -/
  | command (fence : Fence) (lines : List (List Char))
  deriving DecidableEq, Repr

/-- What has been read. -/
structure Contents where
  mode : Mode
  commands : List (List Char)
  environment : Vars
  image : Option String
  deriving DecidableEq

/-- Removes the indentation that all lines share, but for blank ones, which become empty. -/
def dedent (lines : List (List Char)) : List (List Char) :=
  let full := lines.filter fun l => !Text.isBlank l
  let indent := ((full.map fun l => (l.takeWhile Text.isSpace).length).min?).getD 0
  lines.map fun l => if Text.isBlank l then [] else l.drop indent

namespace Contents

/-- Nothing read. -/
def empty : Contents := ⟨.steps, [], .empty, none⟩

/-- Adds a command. -/
def addCommand (c : Contents) (command : List Char) : Contents :=
  { c with mode := .steps, commands := c.commands ++ [command] }

/-- Ends a command of several lines. -/
def endCommand (c : Contents) (fence : Fence) (lines : List (List Char)) : Contents :=
  c.addCommand (fence.command (['\n'].intercalate (dedent lines.reverse)))

/-- Reads a line of an `environment` block. -/
def readVariableLine (c : Contents) (depth : Nat) (line : List Char) : Contents :=
  if line.getLast? == some '\x7b' then { c with mode := .environment (depth + 1) }
  -- The brace that closes the outermost block ends the environment.
  else if line.head? == some '\x7d' then
    { c with mode := if depth ≤ 1 then .steps else .environment (depth - 1) }
  else match assignment? line with
    | some (name, value) => { c with environment := c.environment.insert name value }
    | none => c

/-- Reads an `sh` step. -/
def readShell (c : Contents) (line : List Char) : Contents :=
  match openedFence? line with
  | some fence => { c with mode := .command fence [] }
  | none => c.addCommand ((fencedCommand? line).getD (shellCommand line))

/-- Reads a line outside all blocks. -/
def readStepLine (c : Contents) (line : List Char) : Contents :=
  if "environment".toList.isPrefixOf line && line.getLast? == some '\x7b' then
    { c with mode := .environment 1 }
  else match if c.image.isNone then dockerImage? line else none with
    | some image => { c with image := some image }
    | none => if isShell line then c.readShell line else c

/-- Reads a line. -/
def readLine (c : Contents) (line : List Char) : Contents :=
  match c.mode with
  | .steps => c.readStepLine (Text.trim line)
  | .environment depth => c.readVariableLine depth (Text.trim line)
  | .command fence lines =>
    -- Lines of a command are kept as they are; white space may belong to the command.
    if fence.closes line then c.endCommand fence lines
    else { c with mode := .command fence (line :: lines) }

/-- Ends the text; a command that is still open ends with it. -/
def finish (c : Contents) : Contents :=
  match c.mode with
  | .command fence lines => c.endCommand fence lines
  | _ => c

end Contents

/-- What a Jenkinsfile holds. -/
def contents (text : List Char) : Contents :=
  ((Text.lines text).foldl Contents.readLine .empty).finish

/-- The step that stands in for a Jenkinsfile without `sh` steps. -/
def placeholder : Step := (Step.run "echo 'Converted from Jenkins - please review'").named "Build"

/-- The steps for some commands. -/
def stepsOf (commands : List (List Char)) : List Step :=
  if commands.isEmpty then [placeholder] else commands.map fun c => .run (String.ofList c)

/-- Reads a Jenkinsfile. -/
def read (settings : Settings) (text : String) : Pipeline :=
  let c := contents text.toList
  { name := "Pipeline"
    triggers := [.on .push]
    environment := c.environment
    jobs := [{ Job.new "build" (c.image.getD settings.defaultRunner) with
      steps := stepsOf c.commands }] }

end Jenkins
end CiPipelines

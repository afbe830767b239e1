import CiPipelines.Jenkins.Literal
import CiPipelines.Model.Pipeline

/-!
# Writing Jenkinsfiles

Each job becomes a stage and each command an `sh` step.  Texts stand in single quotes; a command
of several lines stands between triple quotes, one line below the other.  Actions have no place
here.
-/

namespace CiPipelines
namespace Jenkins

/-- The indentation of a level. -/
def indent (level : Nat) : String := String.ofList (List.replicate (4 * level) ' ')

/-- A line on a level. -/
def line (level : Nat) (text : String) : String := indent level ++ text ++ "\n"

/-- A block with a heading. -/
def block (level : Nat) (heading body : String) : String :=
  line level (heading ++ " \x7b") ++ body ++ line level "\x7d"

/-- The variables of a block, none if there are no variables. -/
def environmentBlock (level : Nat) (vars : Vars) : String :=
  if vars.isEmpty then ""
  else block level "environment" <| String.join <| vars.entries.map fun e =>
    line (level + 1) (e.1 ++ " = " ++ quote e.2)

/-- A command. -/
def commandText (level : Nat) (command : String) : String :=
  let text := Text.dropEndWhile (· == '\n') command.toList
  if !text.contains '\n' then line level ("sh " ++ quote (String.ofList text))
  else
    line level "sh '''"
      ++ String.join ((Text.lines text).map fun l =>
        if Text.isBlank l then "\n" else line (level + 1) (String.ofList (escape l)))
      ++ line level "'''"

/-- A command inside its variables. -/
def withVariables (level : Nat) (vars : Vars) (command : String) : String :=
  if vars.isEmpty then commandText level command
  else
    let settings := vars.entries.map fun e => quote (e.1 ++ "=" ++ e.2)
    block level ("withEnv([" ++ ", ".intercalate settings ++ "])") (commandText (level + 1) command)

/-- A step that runs a command, inside its directory. -/
def stepText? (s : Step) : Option String :=
  match s.action with
  | .uses _ _ => none
  | .run command =>
    if s.isVoid then none
    else some (match s.directory with
      | some directory =>
        block 4 ("dir(" ++ quote directory ++ ")") (withVariables 5 s.env command)
      | none => withVariables 4 s.env command)

/-- The steps of a stage; a stage without any says so. -/
def stepsText (steps : List Step) : String :=
  match steps.filterMap stepText? with
  | [] => line 4 "echo 'no steps to run'"
  | texts => String.join texts

/-- The container of a stage. -/
def agentBlock (j : Job) : String :=
  if j.runsOnImage then
    block 3 "agent" (block 4 "docker" (line 5 ("image " ++ quote j.runsOn)))
  else ""

/-- A condition on one line. -/
def conditionLine (condition : String) : String :=
  line 3 ("// condition: "
    ++ String.ofList ([' '].intercalate (Text.words condition.toList)))

/-- A stage. -/
def stageText (j : Job) : String :=
  block 2 ("stage(" ++ quote j.name ++ ")") <|
    agentBlock j
      ++ ((j.condition.map conditionLine).getD "")
      ++ (if j.dependsOn.isEmpty then ""
          else line 3 ("// needs: " ++ ", ".intercalate j.dependsOn))
      ++ environmentBlock 3 j.environment
      ++ block 3 "steps" (stepsText j.steps)

/-- Writes a Jenkinsfile. -/
def write (p : Pipeline) : String :=
  "pipeline \x7b\n" ++ line 1 "agent any" ++ "\n"
    ++ (if p.environment.isEmpty then "" else environmentBlock 1 p.environment ++ "\n")
    ++ block 1 "stages" ("\n".intercalate (p.jobs.map stageText))
    ++ "\x7d\n"

end Jenkins
end CiPipelines

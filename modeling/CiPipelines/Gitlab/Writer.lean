import CiPipelines.Gitlab.Keyword
import CiPipelines.KeyTable
import CiPipelines.Outline.Basic
import CiPipelines.ShellWord

/-!
# Writing GitLab pipelines

Each job has a stage of its own.  The steps of a job are the lines of its script: known actions
become the commands that do the same, others a comment, and a checkout nothing, since GitLab
checks out the repository itself.
-/

namespace CiPipelines
namespace Gitlab

open Outline

/-- Keys of jobs; no job may be named like a keyword. -/
def keyRules : KeyRules := { KeyRules.standard with reserved := keywords }

/-- The script of a job with nothing to run. -/
def emptyScript : String := "echo 'no steps to run'"

/-- Whether an identifier mentions a word. -/
def mentions (id word : String) : Bool := Text.occursIn word.toList id.toList

/-- The shell commands that stand for an action. -/
def actionCommand? (id : String) (inputs : Vars) : Option String :=
  if mentions id "checkout" then none
  else if mentions id "setup-node" then
    let version := (inputs.get? "node-version").getD "18"
    some ("nvm install " ++ version ++ " && nvm use " ++ version)
  else if mentions id "setup-python" then
    let version := (inputs.get? "python-version").getD "3.11"
    some ("pyenv install " ++ version ++ " && pyenv global " ++ version)
  else if mentions id "setup-go" then some "# Go setup - use a Go image for this job"
  else some ("# Action: " ++ id ++ " (manual conversion needed)")

/-- The line of a script that stands for a step. -/
def scriptLine? (s : Step) : Option String :=
  if s.isVoid then none
  else match s.action with
    | .run command => some (match s.directory with
      | some directory => "cd " ++ ShellWord.quote directory ++ " && " ++ command
      | none => command)
    | .uses id inputs => actionCommand? id inputs

/-- The script of a job. -/
def script (j : Job) : List String :=
  match j.steps.filterMap scriptLine? with
  | [] => [emptyScript]
  | lines => lines

/-- A service. -/
def serviceOutline (s : Service) : Outline :=
  .fields ([.field "name" (.text s.image), .field "alias" (.text s.name)]
    ++ varsField "variables" s.env)

/-- The artifacts of a job, all under the name of the first. -/
def artifactLines : List Artifact → List (Line Outline)
  | [] => []
  | first :: rest => [.field "artifacts" (.fields (.field "name" (.text first.name)
      :: listField "paths" ((first :: rest).flatMap (·.paths))))]

/-- The caches of a job. -/
def cacheLines (caches : List Cache) : List (Line Outline) :=
  if caches.isEmpty then []
  else [.field "cache" (.list (caches.map fun c =>
    .fields (.field "key" (.text c.key) :: listField "paths" c.paths)))]

/-- A job. -/
def jobLine (keys : KeyTable) (j : Job) : Line Outline :=
  let key := keys.key j.name
  .field key (.fields ([.field "stage" (.text key)]
    ++ (if j.runsOnImage then [.field "image" (.text j.runsOn)] else [])
    ++ listField "needs" (keys.keys j.dependsOn)
    ++ (j.condition.toList.map fun c =>
      .field "rules" (.list [.fields [.field "if" (.value c)]]))
    ++ varsField "variables" j.environment
    ++ (if j.services.isEmpty then []
        else [.field "services" (.list (j.services.map serviceOutline))])
    ++ [.field "script" (.list ((script j).map .value))]
    ++ artifactLines j.artifacts ++ cacheLines j.cache))

/-- The lines of a pipeline file, with an empty line in front of each job. -/
def outline (p : Pipeline) : List (Line Outline) :=
  let keys := KeyTable.ofJobs keyRules p.jobs
  (if p.environment.isEmpty then [] else varsField "variables" p.environment ++ [.empty])
    ++ listField "stages" (p.jobs.map fun j => keys.key j.name)
    ++ p.jobs.flatMap fun j => [.empty, jobLine keys j]

/-- Writes a GitLab pipeline file. -/
def write (p : Pipeline) : String := print (outline p)

end Gitlab
end CiPipelines

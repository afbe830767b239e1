import CiPipelines.KeyTable
import CiPipelines.Outline.Basic

/-!
# Writing CircleCI pipelines

Every job runs in a container.  The environment of the pipeline is repeated in each job, caches
and artifacts become steps after all others, and one workflow holds the dependencies.  Actions are
kept if they look like commands of CircleCI.
-/

namespace CiPipelines
namespace Circleci

open Outline

/-- The image of jobs that name none. -/
def usualImage : String := "cimg/base:stable"

/-- The name of the workflow; `version` is reserved there. -/
def workflowName (name : String) : String :=
  let key := KeyRules.cleanName name
  if key == "job" || key == "version" then "main" else key

/-- Whether an action may be a command of CircleCI: neither a reference with a version nor a path
of its own. -/
def isCommand (id : String) : Bool :=
  !id.toList.contains '@' && id.toList.head? != some '.'

/-- The steps for a step of the model, none if there is nothing to do or no such action. -/
def stepOutlines (s : Step) : List Outline :=
  if s.isVoid then []
  else match s.action with
    | .uses id inputs =>
      if s.isCheckout then [.text "checkout"]
      else if isCommand id then
        if inputs.isEmpty then [.text id]
        else [.fields [.field id (.fields (varLines inputs))]]
      else []
    | .run command => [.fields [.field "run" (.fields (textField "name" s.name
        ++ [.field "command" (.value command)]
        ++ varsField "environment" s.env
        ++ textField "working_directory" s.directory))]]

/-- The step that saves a cache. -/
def cacheOutline (c : Cache) : Outline :=
  .fields [.field "save_cache" (.fields (.field "key" (.text c.key)
    :: listField "paths" c.paths))]

/-- The steps that store the paths of an artifact. -/
def artifactOutlines (a : Artifact) : List Outline :=
  a.paths.map fun path => .fields [.field "store_artifacts" (.fields
    [.field "path" (.text path), .field "destination" (.text a.name)])]

/-- The container of a service. -/
def serviceOutline (s : Service) : Outline :=
  .fields (.field "image" (.text s.image) :: varsField "environment" s.env)

/-- The containers of a job. -/
def imageOutlines (j : Job) : List Outline :=
  .fields [.field "image" (.text (if j.runsOnImage then j.runsOn else usualImage))]
    :: j.services.map serviceOutline

/-- All steps of a job. -/
def jobSteps (j : Job) : List Outline :=
  (if j.hasCheckout then [] else [.text "checkout"])
    ++ j.steps.flatMap stepOutlines
    ++ j.cache.map cacheOutline
    ++ j.artifacts.flatMap artifactOutlines

/-- A job. -/
def jobLine (keys : KeyTable) (environment : Vars) (j : Job) : Line Outline :=
  .field (keys.key j.name) (.fields ([.field "docker" (.list (imageOutlines j))]
    ++ varsField "environment" (environment.insertAll j.environment.entries)
    ++ [.field "steps" (.list (jobSteps j))]))

/-- The entry of a job in the workflow. -/
def workflowOutline (keys : KeyTable) (j : Job) : Outline :=
  let key := keys.key j.name
  if j.dependsOn.isEmpty then .text key
  else .fields [.field key (.fields (listField "requires" (keys.keys j.dependsOn)))]

/-- The lines of a pipeline file. -/
def outline (p : Pipeline) : List (Line Outline) :=
  let keys := KeyTable.ofJobs .standard p.jobs
  [.field "version" (.word "2.1"), .empty,
    if p.jobs.isEmpty then .field "jobs" (.word "\x7b\x7d")
    else .field "jobs" (.fields (p.jobs.map (jobLine keys p.environment))),
    .empty,
    .field "workflows" (.fields [.field (workflowName p.name) (.fields
      [.field "jobs" (.list (p.jobs.map (workflowOutline keys)))])])]

/-- Writes a CircleCI pipeline file. -/
def write (p : Pipeline) : String := print (outline p)

end Circleci
end CiPipelines

import CiPipelines.KeyTable
import CiPipelines.Outline.Basic

/-!
# Writing GitHub workflows

All triggers of one event share an entry, and a pipeline without triggers starts at each push.  A
job that does not check out the repository gets a step that does.  A container image cannot be a
runner here: the job runs on the usual runner, and a comment names the image.
-/

namespace CiPipelines
namespace Github

open Outline

/-- The runner of jobs that name a container image. -/
def usualRunner : String := "ubuntu-latest"

/-- The action that checks out the repository. -/
def checkoutAction : String := "actions/checkout@v4"

/-- The entry for an event, if there are triggers for it. -/
def eventLines (triggers : List Trigger) (event : Event) : List (Line Outline) :=
  match triggers.filter fun t => t.event == event with
  | [] => []
  | own => [.field event.name (.fields
      (listField "branches" (Trigger.patterns own (·.branches))
        ++ listField "paths" (Trigger.patterns own (·.paths))))]

/-- The times of all schedules. -/
def scheduleLines (triggers : List Trigger) : List (Line Outline) :=
  match (triggers.filter fun t => t.event == .schedule).filterMap (·.cron) with
  | [] => []
  | times => [.field "schedule" (.list (times.map fun c => .fields [.field "cron" (.text c)]))]

/-- The entry for runs that are started by hand. -/
def manualLines (triggers : List Trigger) : List (Line Outline) :=
  if triggers.any fun t => t.event == .manual then [.field "workflow_dispatch" .nothing] else []

/-- All events. -/
def triggerLines (triggers : List Trigger) : List (Line Outline) :=
  let triggers := if triggers.isEmpty then [Trigger.on .push] else triggers
  [.field "on" (.fields (eventLines triggers .push ++ eventLines triggers .pullRequest
    ++ scheduleLines triggers ++ manualLines triggers))]

/-- A service. -/
def serviceLine (s : Service) : Line Outline :=
  .field s.name (.fields (.field "image" (.text s.image)
    :: listField "ports" s.ports ++ varsField "env" s.env))

/-- What a step does. -/
def actionLines : Action → List (Line Outline)
  | .uses id inputs => .field "uses" (.text id) :: varsField "with" inputs
  | .run command => [.field "run" (.value command)]

/-- A step. -/
def stepOutline (s : Step) : Outline :=
  .fields (textField "name" s.name ++ actionLines s.action ++ valueField "if" s.condition
    ++ textField "working-directory" s.directory ++ varsField "env" s.env)

/-- The steps of a job. -/
def stepsOutline (j : Job) : Outline :=
  let own := (j.steps.filter fun s => !s.isVoid).map stepOutline
  .list (if j.hasCheckout then own else stepOutline (.uses checkoutAction) :: own)

/-- Where a job runs. -/
def runnerLines (j : Job) : List (Line Outline) :=
  if j.runsOnImage then
    [.comment ("converted from container image: " ++ j.runsOn),
      .field "runs-on" (.text usualRunner)]
  else [.field "runs-on" (.text j.runsOn)]

/-- A job. -/
def jobLine (keys : KeyTable) (j : Job) : Line Outline :=
  .field (keys.key j.name) (.fields (runnerLines j
    ++ listField "needs" (keys.keys j.dependsOn)
    ++ valueField "if" j.condition
    ++ varsField "env" j.environment
    ++ (if j.services.isEmpty then []
        else [.field "services" (.fields (j.services.map serviceLine))])
    ++ [.field "steps" (stepsOutline j)]))

/-- The lines of a workflow, with an empty line between its parts and between jobs. -/
def outline (p : Pipeline) : List (Line Outline) :=
  let keys := KeyTable.ofJobs .standard p.jobs
  [.field "name" (.text (if p.name.isEmpty then "CI" else p.name)), .empty]
    ++ triggerLines p.triggers ++ [.empty]
    ++ (if p.environment.isEmpty then [] else varsField "env" p.environment ++ [.empty])
    ++ [.field "jobs" (.fields ((p.jobs.map (jobLine keys)).intersperse .empty))]

/-- Writes a workflow file. -/
def write (p : Pipeline) : String := print (outline p)

end Github
end CiPipelines

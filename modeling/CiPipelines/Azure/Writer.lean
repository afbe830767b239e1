import CiPipelines.KeyTable
import CiPipelines.Outline.Basic

/-!
# Writing Azure pipelines

Each job is a stage of its own, so that dependencies and conditions apply to it alone.  Without a
push trigger runs at pushes are switched off; a trigger without branches fires on all of them.
Actions, services, artifacts and caches have no place here.
-/

namespace CiPipelines
namespace Azure

open Outline

/-- The image of the machines. -/
def machineImage : String := "ubuntu-latest"

/-- Keys of stages hold no dashes. -/
def keyRules : KeyRules where
  clean name :=
    String.ofList ((KeyRules.cleanName name).toList.map fun c => if c == '-' then '_' else c)
  reserved := []
  separator := '_'

/-- The branches on which one of the triggers fires. -/
def branchPatterns (triggers : List Trigger) : List String :=
  if triggers.any fun t => t.branches.isEmpty then ["*"]
  else Trigger.patterns triggers (·.branches)

/-- The filters of the triggers of an event. -/
def filterOutline (triggers : List Trigger) : Outline :=
  .fields (.field "branches" (.fields (listField "include" (branchPatterns triggers)))
    :: match Trigger.patterns triggers (·.paths) with
      | [] => []
      | paths => [.field "paths" (.fields (listField "include" paths))])

/-- The triggers for pushes. -/
def pushLine (triggers : List Trigger) : Line Outline :=
  .field "trigger" <| match triggers.filter fun t => t.event == .push with
    | [] => .word "none"
    | own => filterOutline own

/-- The triggers for pull requests, if there are any. -/
def pullRequestLines (triggers : List Trigger) : List (Line Outline) :=
  match triggers.filter fun t => t.event == .pullRequest with
  | [] => []
  | own => [.field "pr" (filterOutline own)]

/-- A schedule. -/
def scheduleOutline (number : Nat) (cron : String) (branches : List String) : Outline :=
  .fields ([.field "cron" (.text cron),
      .field "displayName" (.word ("Schedule " ++ toString number))]
    ++ (if branches.isEmpty then []
        else [.field "branches" (.fields (listField "include" branches))])
    ++ [.field "always" (.word "true")])

/-- The schedules, numbered from one. -/
def scheduleLines (triggers : List Trigger) : List (Line Outline) :=
  let schedules := (triggers.filter fun t => t.event == .schedule).filterMap fun t =>
    t.cron.map fun cron => (cron, t.branches)
  if schedules.isEmpty then []
  else [.field "schedules" (.list (schedules.mapIdx fun i s =>
    scheduleOutline (i + 1) s.1 s.2))]

/-- The script of a command.  As a block it ends in a line break. -/
def scriptOutline (command : String) : Outline :=
  let ended := if command.toList.getLast? == some '\n' then command else command ++ "\n"
  .value (if fitsBlock ended.toList then ended else command)

/-- A step that runs a command. -/
def stepOutline? (s : Step) : Option Outline :=
  match s.action with
  | .uses _ _ => none
  | .run command =>
    if s.isVoid then none
    else some (.fields ([.field "script" (scriptOutline command)]
      ++ textField "displayName" s.name
      ++ textField "workingDirectory" s.directory
      ++ valueField "condition" s.condition
      ++ varsField "env" s.env))

/-- The job of a stage. -/
def jobOutline (key : String) (j : Job) : Outline :=
  .fields ([.field "job" (.text key)]
    ++ (if j.runsOnImage then [.field "container" (.text j.runsOn)] else [])
    ++ varsField "variables" j.environment
    ++ [.field "steps" (.list
      (.fields [.field "checkout" (.text "self")] :: j.steps.filterMap stepOutline?))])

/-- A stage.  One without dependencies says so, since it would wait for the stage before it. -/
def stageOutline (keys : KeyTable) (j : Job) : Outline :=
  let key := keys.key j.name
  .fields ([.field "stage" (.text key)]
    ++ (if j.dependsOn.isEmpty then [.field "dependsOn" (.word "[]")]
        else listField "dependsOn" (keys.keys j.dependsOn))
    ++ valueField "condition" j.condition
    ++ [.field "jobs" (.list [jobOutline key j])])

/-- The lines of a pipeline file. -/
def outline (p : Pipeline) : List (Line Outline) :=
  let keys := KeyTable.ofJobs keyRules p.jobs
  [pushLine p.triggers] ++ pullRequestLines p.triggers ++ scheduleLines p.triggers ++ [.empty]
    ++ (if p.environment.isEmpty then [] else varsField "variables" p.environment ++ [.empty])
    ++ [.field "pool" (.fields [.field "vmImage" (.text machineImage)]), .empty,
      .field "stages" (if p.jobs.isEmpty then .word "[]"
        else .list (p.jobs.map (stageOutline keys)))]

/-- Writes an Azure pipeline file. -/
def write (p : Pipeline) : String := print (outline p)

end Azure
end CiPipelines

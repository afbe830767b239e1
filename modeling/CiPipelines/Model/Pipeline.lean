import CiPipelines.Model.Step

/-!
# Pipelines

A pipeline as all platforms share it: what starts it, the jobs with their steps, and what the
jobs need and leave behind.
-/

namespace CiPipelines

/-- A kind of event that starts a run. -/
inductive Event where
  | push
  | pullRequest
  | schedule
  | manual
  deriving DecidableEq, Repr

namespace Event

/-- The word for an event. -/
def name : Event → String
  | push => "push"
  | pullRequest => "pull_request"
  | schedule => "schedule"
  | manual => "manual"

/-- The event of a word. -/
def ofName? (s : String) : Option Event :=
  [push, pullRequest, schedule, manual].find? fun e => e.name == s

/-- Each event has a word of its own. -/
@[simp] theorem ofName?_name (e : Event) : ofName? e.name = some e := by
  cases e <;> decide

end Event

/-- Something that starts a run. -/
structure Trigger where
  event : Event
  /-- Patterns of branches; without any the branch does not matter. -/
  branches : List String
  /-- Patterns of changed paths; without any the paths do not matter. -/
  paths : List String
  /-- When a schedule runs. -/
  cron : Option String
  deriving DecidableEq, Repr

namespace Trigger

/-- The event, whatever the branch and paths. -/
def on (event : Event) : Trigger := ⟨event, [], [], none⟩

/-- A schedule. -/
def atTimes (cron : String) : Trigger := { on .schedule with cron := some cron }

/-- The patterns that `f` gives for some triggers, each once, in order. -/
def patterns (triggers : List Trigger) (f : Trigger → List String) : List String :=
  (triggers.flatMap f).foldl (fun acc s => if acc.contains s then acc else acc ++ [s]) []

end Trigger

/-- A container that runs beside a job. -/
structure Service where
  name : String
  image : String
  ports : List String
  env : Vars
  deriving DecidableEq

/-- Files that are kept after a job. -/
structure Artifact where
  name : String
  paths : List String
  deriving DecidableEq, Repr

/-- Directories that are kept from run to run. -/
structure Cache where
  key : String
  paths : List String
  deriving DecidableEq, Repr

/-- A unit of work. -/
structure Job where
  name : String
  /-- The label of a runner, or a container image. -/
  runsOn : String
  /-- The jobs that come first. -/
  dependsOn : List String
  environment : Vars
  services : List Service
  steps : List Step
  artifacts : List Artifact
  cache : List Cache
  /-- An expression in the language of the platform it came from. -/
  condition : Option String
  deriving DecidableEq

namespace Job

/-- A job without steps. -/
def new (name runsOn : String) : Job := ⟨name, runsOn, [], .empty, [], [], [], [], none⟩

/-- Whether the job runs in a container image: a slash or a colon tells an image from a label. -/
def runsOnImage (j : Job) : Bool :=
  j.runsOn.toList.any fun c => c == '/' || c == ':'

/-- Whether some step checks out the repository. -/
def hasCheckout (j : Job) : Bool := j.steps.any Step.isCheckout

end Job

/-- A pipeline. -/
structure Pipeline where
  name : String
  triggers : List Trigger
  environment : Vars
  jobs : List Job
  deriving DecidableEq

namespace Pipeline

/-- A pipeline with nothing but a name. -/
def new (name : String) : Pipeline := ⟨name, [], .empty, []⟩

/-- The first job with the given name. -/
def findJob? (p : Pipeline) (name : String) : Option Job :=
  p.jobs.find? fun j => j.name == name

/-- How many steps there are in all jobs. -/
def stepCount (p : Pipeline) : Nat :=
  (p.jobs.flatMap (·.steps)).length

/-- A line that describes the pipeline. -/
def describe (p : Pipeline) : String :=
  "Pipeline(" ++ (if p.name.isEmpty then "unnamed" else p.name) ++ "): "
    ++ toString p.jobs.length ++ " jobs, " ++ toString p.stepCount ++ " steps"

end Pipeline
end CiPipelines

import CiPipelines.PipelineFile

/-!
# Reading CircleCI pipelines

The first container image of a job is its runner, the others are services.  Caches and artifacts
are steps among the others; the dependencies of the jobs stand in the workflows.
-/

namespace CiPipelines
namespace Circleci

/-- The step that checks out the repository. -/
def checkout : Step := (Step.uses "actions/checkout@v4").named "Checkout"

/-- Steps that a pipeline has no place for. -/
def ignoredSteps : List String := ["restore_cache", "persist_to_workspace", "attach_workspace"]

/-- What the steps of a job add to it. -/
structure Contents where
  steps : List Step
  artifacts : List Artifact
  cache : List Cache
  deriving DecidableEq

namespace Contents

/-- Nothing yet. -/
def empty : Contents := ⟨[], [], []⟩

/-- Adds a step. -/
def addStep (c : Contents) (s : Step) : Contents := { c with steps := c.steps ++ [s] }

/-- Adds a cache. -/
def addCache (c : Contents) (cache : Cache) : Contents := { c with cache := c.cache ++ [cache] }

/-- Adds a path to the first artifact with the name. -/
def addPath (name path : String) : List Artifact → List Artifact
  | [] => [⟨name, [path]⟩]
  | a :: rest =>
    if a.name = name then { a with paths := a.paths ++ [path] } :: rest
    else a :: addPath name path rest

/-- Adds a path to the artifact with the name, which is new if there is none. -/
def addArtifact (c : Contents) (name path : String) : Contents :=
  { c with artifacts := addPath name path c.artifacts }

end Contents

/-- A `run` step: a command alone, or fields. -/
def readRun : Node → Step
  | .scalar command => .run command
  | body =>
    ⟨body.textAt? "name", .run ((body.textAt? "command").getD ""), body.varsAt "environment", none,
      body.textAt? "working_directory"⟩

/-- Reads a step with a body.  What is no step of CircleCI itself is a reusable command. -/
def readField (c : Contents) (kind : String) (body : Node) : Contents :=
  if kind == "run" then c.addStep (readRun body)
  else if kind == "checkout" then c.addStep checkout
  else if kind == "save_cache" then
    c.addCache ⟨(body.textAt? "key").getD "default", body.textsAt "paths"⟩
  else if kind == "store_artifacts" then
    match body.textAt? "path" with
    | some path => c.addArtifact ((body.textAt? "destination").getD "artifacts") path
    | none => c
  else if ignoredSteps.contains kind then c
  else c.addStep (.ofAction (.uses kind body.vars))

/-- Reads an item of the steps: a name alone, or fields, each of which is a step. -/
def readItem (c : Contents) : Node → Contents
  | .scalar name => c.addStep (if name == "checkout" then checkout else .uses name)
  | .fields entries => entries.foldl (fun c (kind, body) => readField c kind body) c
  | _ => c

/-- A service, if it has an image. -/
def readService? (node : Node) : Option Service :=
  (node.textAt? "image").map fun image =>
    ⟨Service.nameOfImage image, image, [], node.varsAt "environment"⟩

/-- A job, without its dependencies. -/
def readJob (settings : Settings) (name : String) (body : Node) : Job :=
  let images := body.itemsAt "docker"
  let contents := (body.itemsAt "steps").foldl readItem .empty
  { name := name
    runsOn := (images.head?.bind fun node => node.textAt? "image").getD settings.defaultRunner
    dependsOn := []
    environment := body.varsAt "environment"
    services := images.tail.filterMap readService?
    steps := contents.steps
    artifacts := contents.artifacts
    cache := contents.cache
    condition := none }

/-- The jobs of a file, without their dependencies. -/
def readJobs (settings : Settings) (root : Node) : List Job :=
  ((root.entriesAt "jobs").filter fun (_, body) => body.isFields).map fun (name, body) =>
    readJob settings name body

/-- The requirements that the workflows state, in order: a job and the jobs it requires. -/
def requirements (root : Node) : List (String × List String) :=
  let workflows := (root.entriesAt "workflows").filter fun (name, _) => name != "version"
  workflows.flatMap fun (_, workflow) =>
    (workflow.itemsAt "jobs").flatMap fun entry =>
      entry.entries.map fun (name, body) => (name, body.textsAt "requires")

/-- Adds the names that a list does not hold yet. -/
def addMissing (names more : List String) : List String :=
  more.foldl (fun acc name => if acc.contains name then acc else acc ++ [name]) names

/-- Adds requirements to the first job with the name. -/
def require (name : String) (needed : List String) : List Job → List Job
  | [] => []
  | job :: rest =>
    if job.name = name then { job with dependsOn := addMissing job.dependsOn needed } :: rest
    else job :: require name needed rest

/-- The pipeline of a file. -/
def ofNode (settings : Settings) (root : Node) : Pipeline where
  name := "Pipeline"
  triggers := [.on .push]
  environment := .empty
  jobs := (requirements root).foldl (fun jobs (name, needed) => require name needed jobs)
    (readJobs settings root)

/-- Reads a CircleCI pipeline file. -/
def read (settings : Settings) (text : String) : Except Malformed Pipeline := do
  return ofNode settings (← Node.ofPipelineFile text)

end Circleci
end CiPipelines

import CiPipelines.PipelineFile

/-!
# Reading GitHub workflows

Of a workflow the name, the events that a pipeline knows, the environment and the jobs are read.
A step with neither `uses` nor `run` is kept as an empty command.
-/

namespace CiPipelines
namespace Github

/-- The event under a trigger: its branches and paths. -/
def filtered (event : Event) (body : Node) : Trigger :=
  ⟨event, body.textsAt "branches", body.textsAt "paths", none⟩

/-- The triggers for an event; none for an event that pipelines do not know. -/
def readEvent (name : String) (body : Node) : List Trigger :=
  if name == "push" then [filtered .push body]
  else if name == "pull_request" || name == "pull_request_target" then
    [filtered .pullRequest body]
  else if name == "schedule" then
    (body.items.filterMap fun entry => entry.textAt? "cron").map .atTimes
  else if name == "workflow_dispatch" then [.on .manual]
  else []

/-- The triggers under `on`: an event, a list of events, or events with filters. -/
def readTriggers : Node → List Trigger
  | .scalar event => readEvent event .null
  | .list events => (events.filterMap Node.text?).flatMap fun event => readEvent event .null
  | .fields events => events.flatMap fun (event, body) => readEvent event body
  | .null => []

/-- A service: its image alone, or fields. -/
def readService (name : String) (body : Node) : Service :=
  let image := (body.text? <|> body.textAt? "image").getD ""
  ⟨name, image, body.textsAt "ports", body.varsAt "env"⟩

/-- What a step does. -/
def readAction (node : Node) : Action :=
  match node.textAt? "uses", node.textAt? "run" with
  | some id, _ => .uses id (node.varsAt "with")
  | none, some command => .run command
  | none, none => .run ""

/-- A step. -/
def readStep (node : Node) : Step :=
  ⟨node.textAt? "name", readAction node, node.varsAt "env", node.textAt? "if",
    node.textAt? "working-directory"⟩

/-- A job. -/
def readJob (settings : Settings) (name : String) (body : Node) : Job where
  name := name
  runsOn := (body.textsAt "runs-on").headD settings.defaultRunner
  dependsOn := body.textsAt "needs"
  environment := body.varsAt "env"
  services := (body.entriesAt "services").map fun (name, service) => readService name service
  steps := ((body.itemsAt "steps").filter Node.isFields).map readStep
  artifacts := []
  cache := []
  condition := body.textAt? "if"

/-- The jobs of a workflow. -/
def readJobs (settings : Settings) (root : Node) : List Job :=
  ((root.entriesAt "jobs").filter fun (_, body) => body.isFields).map fun (name, body) =>
    readJob settings name body

/-- The pipeline of a workflow. -/
def ofNode (settings : Settings) (root : Node) : Pipeline where
  name := (root.textAt? "name").getD ""
  triggers := ((root.get? "on").map readTriggers).getD []
  environment := root.varsAt "env"
  jobs := readJobs settings root

/-- Reads a workflow file. -/
def read (settings : Settings) (text : String) : Except Malformed Pipeline := do
  return ofNode settings (← Node.ofPipelineFile text)

end Github
end CiPipelines

import CiPipelines.Gitlab.Keyword
import CiPipelines.PipelineFile

/-!
# Reading GitLab pipelines

Image and preparation of a job come from the job, else from the mapping `default`, or from the top
of the file when there is no such mapping.  Pushes to the default branch start the pipeline.
-/

namespace CiPipelines
namespace Gitlab

/-- The lines of a script: one text, or a list of texts and of lists of texts. -/
def scriptLines : Node → List String
  | .scalar line => [line]
  | .list items => items.flatMap fun
    | .list lines => (Node.list lines).texts
    | item => item.text?.toList
  | _ => []

/-- The name of an image: a text, or under `name`. -/
def imageName? (node : Node) : Option String := node.text? <|> node.textAt? "name"

/-- Variables: texts, or fields with a text under `value`. -/
def readVars (node : Node) : Vars :=
  .ofList <| node.entries.filterMap fun (key, value) =>
    (value.text? <|> value.textAt? "value").map fun s => (key, s)

/-- The variables of a field. -/
def readVarsAt (node : Node) (key : String) : Vars :=
  ((node.get? key).map readVars).getD .empty

/-- A service, if it has an image. -/
def readService? (node : Node) : Option Service :=
  (imageName? node).map fun image =>
    ⟨(node.textAt? "alias").getD (Service.nameOfImage image), image, [],
      readVarsAt node "variables"⟩

/-- A cache, if it has paths. -/
def readCache? (node : Node) : Option Cache :=
  match node.textsAt "paths" with
  | [] => none
  | paths => some ⟨(node.textAt? "key").getD "default", paths⟩

/-- The caches of a job: one, or a list of them. -/
def readCaches : Option Node → List Cache
  | some (.list entries) => entries.filterMap readCache?
  | some entry => (readCache? entry).toList
  | none => []

/-- The artifacts of a job, if they have paths. -/
def readArtifacts (job : String) : Option Node → List Artifact
  | some node =>
    match node.textsAt "paths" with
    | [] => []
    | paths => [⟨(node.textAt? "name").getD (job ++ "-artifacts"), paths⟩]
  | none => []

/-- A job; `defaults` is asked for what the job does not say. -/
def readJob (settings : Settings) (defaults : Node) (name : String) (body : Node) : Job where
  name := name
  runsOn :=
    ((body.get? "image" <|> defaults.get? "image").bind imageName?).getD settings.defaultRunner
  dependsOn := (body.itemsAt "needs").filterMap fun need => need.text? <|> need.textAt? "job"
  environment := readVarsAt body "variables"
  services := (body.itemsAt "services").filterMap readService?
  steps :=
    let before := body.get? "before_script" <|> defaults.get? "before_script"
    ((before.toList ++ (body.get? "script").toList).flatMap scriptLines).map .run
  artifacts := readArtifacts name (body.get? "artifacts")
  cache := readCaches (body.get? "cache")
  condition := (body.itemsAt "rules").findSome? fun rule => rule.textAt? "if"

/-- Where jobs find what they do not say. -/
def defaults (root : Node) : Node :=
  match root.get? "default" with
  | some node => if node.isFields then node else root
  | none => root

/-- The jobs of a file. -/
def readJobs (settings : Settings) (root : Node) : List Job :=
  (root.entries.filter fun (key, body) => namesJob key && body.isFields).map fun (key, body) =>
    readJob settings (defaults root) key body

/-- The pipeline of a file. -/
def ofNode (settings : Settings) (root : Node) : Pipeline where
  name := "Pipeline"
  triggers := [{ Trigger.on .push with branches := [settings.defaultBranch] }]
  environment := readVarsAt root "variables"
  jobs := readJobs settings root

/-- Reads a GitLab pipeline file. -/
def read (settings : Settings) (text : String) : Except Malformed Pipeline := do
  return ofNode settings (← Node.ofPipelineFile text)

end Gitlab
end CiPipelines

import CiPipelines.Model.Pipeline

/-!
# Reading stored pipelines

A stored pipeline is read from JSON or YAML.  What the two formats have in common is the shape of
a pipeline, given here once; how a text, a list or a record is found in a value is the matter of
the format.  A record holds each known field at most once, unknown fields are skipped, and a field
that is missing has nothing in it, unless it is required.

The action of a step shares the record of the step.  Its fields must be of the right kind whatever
the format would make of them elsewhere, so they are looked at as what they are: *content*.
-/

namespace CiPipelines

/-- Reading that may fail and counts down an allowance. -/
abbrev Reading := StateT Nat Option

/-- What a value is by itself. -/
inductive Content where
  | text (s : String)
  | number (n : Nat)
  | record (entries : List (Content × Content))
  | other

/-- How the parts of a stored pipeline are found in values of type `α`. -/
structure Format (α : Type) where
  /-- A text. -/
  text : α → Reading String
  /-- A value that may be null. -/
  optional : α → Reading (Option α)
  /-- A list. -/
  list : α → Reading (List α)
  /-- A record with fields of the given names, in order. -/
  record : List String → α → Reading (List (String × α))
  /-- A record whose fields have any names. -/
  table : α → Reading (List (String × α))
  /-- One of several words. -/
  word : α → Reading String
  /-- A value of any kind. -/
  content : α → Reading Content

namespace Stored

variable {α : Type}

/-- The field of a record with the given name, which must not be there twice. -/
def field? (entries : List (String × α)) (name : String) : Reading (Option α) :=
  match entries.filter fun e => e.1 == name with
  | [] => pure none
  | [(_, value)] => pure (some value)
  | _ => failure

/-- A field that must be there. -/
def required {β : Type} (entries : List (String × α)) (name : String) (read : α → Reading β) :
    Reading β := do
  match ← field? entries name with
  | some value => read value
  | none => failure

/-- A field that has a default. -/
def withDefault {β : Type} (entries : List (String × α)) (name : String) (default : β)
    (read : α → Reading β) : Reading β := do
  match ← field? entries name with
  | some value => read value
  | none => pure default

/-- A list of texts. -/
def texts (f : Format α) (value : α) : Reading (List String) := do
  (← f.list value).mapM f.text

/-- A list of values. -/
def listOf {β : Type} (f : Format α) (read : α → Reading β) (value : α) : Reading (List β) := do
  (← f.list value).mapM read

/-- A text, or null. -/
def optionalText (f : Format α) (value : α) : Reading (Option String) := do
  match ← f.optional value with
  | some value => return some (← f.text value)
  | none => return none

/-- Variables.  Of several values of one name the last one counts. -/
def vars (f : Format α) (value : α) : Reading Vars := do
  let pairs ← (← f.table value).mapM fun e => do return (e.1, ← f.text e.2)
  return Vars.ofList pairs

/-- A trigger. -/
def trigger (f : Format α) (value : α) : Reading Trigger := do
  let entries ← f.record ["type", "branches", "paths", "cron"] value
  let word ← required entries "type" f.word
  let branches ← withDefault entries "branches" [] (texts f)
  let paths ← withDefault entries "paths" [] (texts f)
  let cron ← withDefault entries "cron" none (optionalText f)
  match Event.ofName? word with
  | some event => return ⟨event, branches, paths, cron⟩
  | none => failure

/-- A service. -/
def service (f : Format α) (value : α) : Reading Service := do
  let entries ← f.record ["name", "image", "ports", "env"] value
  let name ← required entries "name" f.text
  let image ← required entries "image" f.text
  let ports ← withDefault entries "ports" [] (texts f)
  let env ← withDefault entries "env" .empty (vars f)
  return ⟨name, image, ports, env⟩

/-- An artifact. -/
def artifact (f : Format α) (value : α) : Reading Artifact := do
  let entries ← f.record ["name", "paths"] value
  let name ← required entries "name" f.text
  let paths ← required entries "paths" (texts f)
  return ⟨name, paths⟩

/-- A cache. -/
def cache (f : Format α) (value : α) : Reading Cache := do
  let entries ← f.record ["key", "paths"] value
  let key ← required entries "key" f.text
  let paths ← required entries "paths" (texts f)
  return ⟨key, paths⟩

/-- The text of some content. -/
def contentText? : Content → Option String
  | .text s => some s
  | _ => none

/-- The variables of some content. -/
def contentVars? : Content → Option Vars
  | .record entries => do
    let pairs ← entries.mapM fun e => do return (← contentText? e.1, ← contentText? e.2)
    return Vars.ofList pairs
  | _ => none

/-- The field of a record of content, which must not be there twice. -/
def contentField? (entries : List (String × Content)) (name : String) :
    Option (Option Content) :=
  match entries.filter fun e => e.1 == name with
  | [] => some none
  | [(_, c)] => some (some c)
  | _ => none

/-- The action of a step.  Its kind is a word, or the number of the kind. -/
def action? (entries : List (String × Content)) : Option Action := do
  let kind ← (← contentField? entries "type").bind fun
    | .text s => [("uses", true), ("run", false)].lookup s
    | .number n => [(0, true), (1, false)].lookup n
    | _ => none
  if kind then do
    let id ← (← contentField? entries "id").bind contentText?
    let inputs ← match ← contentField? entries "with" with
      | some c => contentVars? c
      | none => some .empty
    return .uses id inputs
  else do
    let command ← (← contentField? entries "command").bind contentText?
    return .run command

/-- The fields of a step that are not part of its action. -/
def stepFields : List String := ["name", "env", "if", "working_directory"]

/-- A step. -/
def step (f : Format α) (value : α) : Reading Step := do
  let entries ← f.table value
  let (own, others) := entries.partition fun e => stepFields.contains e.1
  let name ← withDefault own "name" none (optionalText f)
  let env ← withDefault own "env" .empty (vars f)
  let condition ← withDefault own "if" none (optionalText f)
  let directory ← withDefault own "working_directory" none (optionalText f)
  let contents ← others.mapM fun e => do return (e.1, ← f.content e.2)
  match action? contents with
  | some action => return ⟨name, action, env, condition, directory⟩
  | none => failure

/-- A job. -/
def job (f : Format α) (value : α) : Reading Job := do
  let entries ← f.record ["name", "runs_on", "depends_on", "environment", "services", "steps",
    "artifacts", "cache", "condition"] value
  let name ← required entries "name" f.text
  let runsOn ← required entries "runs_on" f.text
  let dependsOn ← withDefault entries "depends_on" [] (texts f)
  let environment ← withDefault entries "environment" .empty (vars f)
  let services ← withDefault entries "services" [] (listOf f (service f))
  let steps ← withDefault entries "steps" [] (listOf f (step f))
  let artifacts ← withDefault entries "artifacts" [] (listOf f (artifact f))
  let cache ← withDefault entries "cache" [] (listOf f (cache f))
  let condition ← withDefault entries "condition" none (optionalText f)
  return ⟨name, runsOn, dependsOn, environment, services, steps, artifacts, cache, condition⟩

/-- A pipeline. -/
def pipeline (f : Format α) (value : α) : Reading Pipeline := do
  let entries ← f.record ["name", "triggers", "environment", "jobs"] value
  let name ← required entries "name" f.text
  let triggers ← withDefault entries "triggers" [] (listOf f (trigger f))
  let environment ← withDefault entries "environment" .empty (vars f)
  let jobs ← withDefault entries "jobs" [] (listOf f (job f))
  return ⟨name, triggers, environment, jobs⟩

end Stored
end CiPipelines

import CiPipelines.Model.Pipeline

/-!
# Records

A pipeline is stored as a record: texts, lists, and fields in a fixed order.  Fields with nothing
in them are left out, but for the triggers and jobs of a pipeline, the steps of a job and the
paths of artifacts and caches.
-/

namespace CiPipelines

/-- A part of a stored pipeline. -/
inductive Record where
  | text (s : String)
  | list (items : List Record)
  | fields (entries : List (String × Record))

namespace Record

/-- A list of texts. -/
def texts (items : List String) : Record := .list (items.map .text)

/-- Variables as fields. -/
def ofVars (v : Vars) : Record := .fields (v.entries.map fun e => (e.1, .text e.2))

/-- A field with a list, unless the list is empty. -/
def listField (key : String) (items : List Record) : List (String × Record) :=
  if items.isEmpty then [] else [(key, .list items)]

/-- A field with texts, unless there are none. -/
def textsField (key : String) (items : List String) : List (String × Record) :=
  listField key (items.map .text)

/-- A field with variables, unless there are none. -/
def varsField (key : String) (v : Vars) : List (String × Record) :=
  if v.isEmpty then [] else [(key, ofVars v)]

/-- A field with a text, if there is one. -/
def optionField (key : String) (s : Option String) : List (String × Record) :=
  s.toList.map fun s => (key, .text s)

end Record

open Record

/-- A trigger as a record. -/
def Trigger.record (t : Trigger) : Record :=
  .fields ([("type", .text t.event.name)] ++ textsField "branches" t.branches
    ++ textsField "paths" t.paths ++ optionField "cron" t.cron)

/-- A service as a record. -/
def Service.record (s : Service) : Record :=
  .fields ([("name", .text s.name), ("image", .text s.image)] ++ textsField "ports" s.ports
    ++ varsField "env" s.env)

/-- An artifact as a record. -/
def Artifact.record (a : Artifact) : Record :=
  .fields [("name", .text a.name), ("paths", texts a.paths)]

/-- A cache as a record. -/
def Cache.record (c : Cache) : Record :=
  .fields [("key", .text c.key), ("paths", texts c.paths)]

/-- What a step does, as fields of the step. -/
def Action.fields : Action → List (String × Record)
  | .uses id inputs => [("type", .text "uses"), ("id", .text id)] ++ varsField "with" inputs
  | .run command => [("type", .text "run"), ("command", .text command)]

/-- A step as a record. -/
def Step.record (s : Step) : Record :=
  .fields (optionField "name" s.name ++ s.action.fields ++ varsField "env" s.env
    ++ optionField "if" s.condition ++ optionField "working_directory" s.directory)

/-- A job as a record. -/
def Job.record (j : Job) : Record :=
  .fields ([("name", .text j.name), ("runs_on", .text j.runsOn)]
    ++ textsField "depends_on" j.dependsOn
    ++ varsField "environment" j.environment
    ++ listField "services" (j.services.map Service.record)
    ++ [("steps", .list (j.steps.map Step.record))]
    ++ listField "artifacts" (j.artifacts.map Artifact.record)
    ++ listField "cache" (j.cache.map Cache.record)
    ++ optionField "condition" j.condition)

/-- A pipeline as a record. -/
def Pipeline.record (p : Pipeline) : Record :=
  .fields ([("name", .text p.name), ("triggers", .list (p.triggers.map Trigger.record))]
    ++ varsField "environment" p.environment
    ++ [("jobs", .list (p.jobs.map Job.record))])

end CiPipelines

import CiPipelines.CommandLine.Run
import CiPipelines.Proofs.JsonTexts
import CiPipelines.Stored.Json

/-!
# Stored pipelines are read back

A pipeline is stored as a record, and from the record it is read back as it was.  This holds for
every format that finds what a record was made of; what such a format has to do is said once, as
`Format.Carries`, and each part of a pipeline is read back by it.  JSON is such a format, so the
JSON text of a pipeline holds all there is to the pipeline.
-/

namespace CiPipelines

/-! ## Fields that may be left out -/

namespace Record

/-- The fields that are there, in order. -/
def present (parts : List (String × Option Record)) : List (String × Record) :=
  parts.filterMap fun part => part.2.map fun value => (part.1, value)

/-- A list, unless it is empty. -/
def listPart (items : List Record) : Option Record :=
  if items.isEmpty then none else some (.list items)

/-- Texts, unless there are none. -/
def textsPart (items : List String) : Option Record := listPart (items.map .text)

/-- Variables, unless there are none. -/
def varsPart (v : Vars) : Option Record := if v.isEmpty then none else some (ofVars v)

theorem present_append (parts more : List (String × Option Record)) :
    present (parts ++ more) = present parts ++ present more := List.filterMap_append

variable (key : String) (rest : List (String × Option Record))

theorem present_cons (part : Option Record) :
    present ((key, part) :: rest) =
      (part.map fun value => (key, value)).toList ++ present rest := by
  cases part <;> rfl

@[simp] theorem present_nil : present [] = [] := rfl

@[simp] theorem present_some (value : Record) :
    present ((key, some value) :: rest) = (key, value) :: present rest := rfl

@[simp] theorem present_listPart (items : List Record) :
    present ((key, listPart items) :: rest) = listField key items ++ present rest := by
  rw [present_cons, listPart, listField]
  split <;> rfl

@[simp] theorem present_textsPart (items : List String) :
    present ((key, textsPart items) :: rest) = textsField key items ++ present rest :=
  present_listPart key rest _

@[simp] theorem present_varsPart (v : Vars) :
    present ((key, varsPart v) :: rest) = varsField key v ++ present rest := by
  rw [present_cons, varsPart, varsField]
  split <;> rfl

@[simp] theorem present_option (s : Option String) :
    present ((key, s.map .text) :: rest) = optionField key s ++ present rest := by
  cases s <;> rfl

end Record

open Record

/-! ## Records as parts -/

/-- The fields of a trigger. -/
def Trigger.parts (t : Trigger) : List (String × Option Record) :=
  [("type", some (.text t.event.name)), ("branches", textsPart t.branches),
    ("paths", textsPart t.paths), ("cron", t.cron.map .text)]

/-- The fields of a service. -/
def Service.parts (s : Service) : List (String × Option Record) :=
  [("name", some (.text s.name)), ("image", some (.text s.image)), ("ports", textsPart s.ports),
    ("env", varsPart s.env)]

/-- The fields of an artifact. -/
def Artifact.parts (a : Artifact) : List (String × Option Record) :=
  [("name", some (.text a.name)), ("paths", some (Record.texts a.paths))]

/-- The fields of a cache. -/
def Cache.parts (c : Cache) : List (String × Option Record) :=
  [("key", some (.text c.key)), ("paths", some (Record.texts c.paths))]

/-- The fields of what a step does. -/
def Action.parts : Action → List (String × Option Record)
  | .uses id inputs =>
    [("type", some (.text "uses")), ("id", some (.text id)), ("with", varsPart inputs)]
  | .run command => [("type", some (.text "run")), ("command", some (.text command))]

/-- The fields of a step. -/
def Step.parts (s : Step) : List (String × Option Record) :=
  ("name", s.name.map .text) :: s.action.parts ++ [("env", varsPart s.env),
    ("if", s.condition.map .text), ("working_directory", s.directory.map .text)]

/-- The fields of a job. -/
def Job.parts (j : Job) : List (String × Option Record) :=
  [("name", some (.text j.name)), ("runs_on", some (.text j.runsOn)),
    ("depends_on", textsPart j.dependsOn), ("environment", varsPart j.environment),
    ("services", listPart (j.services.map Service.record)),
    ("steps", some (.list (j.steps.map Step.record))),
    ("artifacts", listPart (j.artifacts.map Artifact.record)),
    ("cache", listPart (j.cache.map Cache.record)), ("condition", j.condition.map .text)]

/-- The fields of a pipeline. -/
def Pipeline.parts (p : Pipeline) : List (String × Option Record) :=
  [("name", some (.text p.name)), ("triggers", some (.list (p.triggers.map Trigger.record))),
    ("environment", varsPart p.environment), ("jobs", some (.list (p.jobs.map Job.record)))]

theorem Trigger.record_eq (t : Trigger) : t.record = .fields (present t.parts) := by
  simp [Trigger.record, Trigger.parts]

theorem Service.record_eq (s : Service) : s.record = .fields (present s.parts) := by
  simp [Service.record, Service.parts]

theorem Artifact.record_eq (a : Artifact) : a.record = .fields (present a.parts) := rfl

theorem Cache.record_eq (c : Cache) : c.record = .fields (present c.parts) := rfl

theorem Action.fields_eq (a : Action) : a.fields = present a.parts := by
  cases a <;> simp [Action.fields, Action.parts]

theorem Step.record_eq (s : Step) : s.record = .fields (present s.parts) := by
  simp [Step.record, Step.parts, Action.fields_eq, present_append]

theorem Job.record_eq (j : Job) : j.record = .fields (present j.parts) := by
  simp [Job.record, Job.parts]

theorem Pipeline.record_eq (p : Pipeline) : p.record = .fields (present p.parts) := by
  simp [Pipeline.record, Pipeline.parts]

/-! ## Fields are found -/

/-- A field that is there is the only one with its name. -/
theorem filter_present {parts : List (String × Option Record)}
    (hnodup : (parts.map (·.1)).Nodup) {name : String} {part : Option Record}
    (h : (name, part) ∈ parts) : ((present parts).filter fun e => e.1 == name) =
      (part.map fun value => (name, value)).toList := by
  have hnone : ∀ parts : List (String × Option Record), name ∉ parts.map (·.1) →
      ((present parts).filter fun e => e.1 == name) = [] := by
    intro parts hname
    refine List.filter_eq_nil_iff.2 fun e he heq => hname ?_
    obtain ⟨⟨key, value⟩, hmem, hvalue⟩ := List.mem_filterMap.1 he
    obtain ⟨r, -, rfl⟩ := Option.map_eq_some_iff.1 hvalue
    exact List.mem_map.2 ⟨_, hmem, eq_of_beq heq⟩
  induction parts with
  | nil => exact absurd h List.not_mem_nil
  | cons first parts ih =>
    obtain ⟨hfirst, hnodup⟩ := List.nodup_cons.1 hnodup
    have hsplit : present (first :: parts) =
        (first.2.map fun value => (first.1, value)).toList ++ present parts := present_cons ..
    rw [hsplit, List.filter_append]
    -- Either the first part has the name and no other one does, or it is among the others.
    rcases List.mem_cons.1 h with rfl | h
    · rw [hnone parts hfirst, List.append_nil]
      cases part <;> simp
    · have hne : first.1 ≠ name := fun heq => hfirst (List.mem_map.2 ⟨_, h, heq.symm⟩)
      rw [ih hnodup h]
      cases first.2 <;> simp [hne]

/-- A format that finds what a record was made of in the value that `enc` makes of it. -/
structure Format.Carries {α : Type} (f : Format α) (enc : Record → α) : Prop where
  text (s : String) : f.text (enc (.text s)) = pure s
  optional (s : String) : f.optional (enc (.text s)) = pure (some (enc (.text s)))
  list (items : List Record) : f.list (enc (.list items)) = pure (items.map enc)
  record (names : List String) (entries : List (String × Record)) :
    f.record names (enc (.fields entries)) = pure (entries.map fun e => (e.1, enc e.2))
  table (entries : List (String × Record)) :
    f.table (enc (.fields entries)) = pure (entries.map fun e => (e.1, enc e.2))
  word (s : String) : f.word (enc (.text s)) = pure s
  contentOfText (s : String) : f.content (enc (.text s)) = pure (.text s)
  contentOfVars (v : Vars) : f.content (enc (ofVars v)) =
    pure (.record (v.entries.map fun e => (.text e.1, .text e.2)))

namespace Stored

/-- Reading each item of a list gives what there is to read. -/
theorem mapM_eq_pure {m : Type → Type} [Monad m] [LawfulMonad m] {α β γ : Type} {read : α → m β}
    {write : γ → α} (value : γ → β) {items : List γ}
    (h : ∀ x ∈ items, read (write x) = pure (value x)) :
    (items.map write).mapM read = pure (items.map value) := by
  induction items with
  | nil => exact List.mapM_nil
  | cons x items ih =>
    rw [List.map_cons, List.mapM_cons, h x (List.mem_cons_self ..), pure_bind,
      ih fun y hy => h y (List.mem_cons_of_mem _ hy), pure_bind]
    rfl

section

variable {α β : Type} {f : Format α} {enc : Record → α} {parts : List (String × Option Record)}

/-- The values of the fields of a record that are there. -/
def encoded (enc : Record → α) (parts : List (String × Option Record)) : List (String × α) :=
  (present parts).map fun e => (e.1, enc e.2)

section

variable (hnodup : (parts.map (·.1)).Nodup)

include hnodup

theorem field?_encoded (name : String) {part : Option Record} (h : (name, part) ∈ parts) :
    field? (encoded enc parts) name = pure (part.map enc) := by
  have hfilter : ((encoded enc parts).filter fun e => e.1 == name) =
      (part.map fun value => (name, enc value)).toList := by
    rw [encoded, List.filter_map]
    show ((present parts).filter fun e => e.1 == name).map _ = _
    rw [filter_present hnodup h]
    cases part <;> rfl
  rw [field?, hfilter]
  cases part <;> rfl

theorem required_encoded (name : String) (value : Record) (h : (name, some value) ∈ parts)
    (read : α → Reading β) : required (encoded enc parts) name read = read (enc value) := by
  rw [required, field?_encoded hnodup name h, pure_bind]
  rfl

theorem withDefault_encoded (name : String) (value : Record) (h : (name, some value) ∈ parts)
    (default : β) (read : α → Reading β) :
    withDefault (encoded enc parts) name default read = read (enc value) := by
  rw [withDefault, field?_encoded hnodup name h, pure_bind]
  rfl

theorem withDefault_none (name : String) (h : (name, none) ∈ parts) (default : β)
    (read : α → Reading β) : withDefault (encoded enc parts) name default read = pure default := by
  rw [withDefault, field?_encoded hnodup name h, pure_bind]
  rfl

end

end

/-! ## Parts of a pipeline -/

section

variable {α : Type} {f : Format α} {enc : Record → α} (h : f.Carries enc)

include h

theorem texts_list (items : List String) :
    texts f (enc (.list (items.map .text))) = pure items := by
  rw [texts, h.list, pure_bind, List.map_map]
  refine (mapM_eq_pure id fun s _ => h.text s).trans ?_
  rw [List.map_id]

theorem listOf_list {β : Type} {record : β → Record} {read : α → Reading β} {items : List β}
    (hread : ∀ x ∈ items, read (enc (record x)) = pure x) :
    listOf f read (enc (.list (items.map record))) = pure items := by
  rw [listOf, h.list, pure_bind, List.map_map]
  refine (mapM_eq_pure id hread).trans ?_
  rw [List.map_id]

theorem optionalText_text (s : String) : optionalText f (enc (.text s)) = pure (some s) := by
  rw [optionalText, h.optional, pure_bind]
  show (do return some (← f.text (enc (.text s)))) = _
  rw [h.text, pure_bind]

theorem vars_ofVars (v : Vars) : vars f (enc (ofVars v)) = pure v := by
  have hentries : ((v.entries.map fun e => ((e.1, .text e.2) : String × Record)).map
      fun e => (e.1, enc e.2)) = v.entries.map fun e => (e.1, enc (.text e.2)) := List.map_map ..
  rw [vars, ofVars, h.table, pure_bind, hentries, mapM_eq_pure id, pure_bind,
    List.map_id, Vars.ofList_entries]
  intro e _
  rw [h.text, pure_bind]
  rfl

section

variable {parts : List (String × Option Record)} (hnodup : (parts.map (·.1)).Nodup)

include hnodup

theorem withDefault_texts (name : String) (items : List String)
    (hmem : (name, textsPart items) ∈ parts) :
    withDefault (encoded enc parts) name [] (texts f) = pure items := by
  by_cases hempty : items = []
  · subst hempty
    exact withDefault_none hnodup name hmem _ _
  · have hpart : textsPart items = some (.list (items.map .text)) := by
      simp [textsPart, listPart, hempty]
    rw [withDefault_encoded hnodup name _ (hpart ▸ hmem), texts_list h]

theorem withDefault_listOf {β : Type} {record : β → Record} {read : α → Reading β} (name : String)
    (items : List β) (hmem : (name, listPart (items.map record)) ∈ parts)
    (hread : ∀ x ∈ items, read (enc (record x)) = pure x) :
    withDefault (encoded enc parts) name [] (listOf f read) = pure items := by
  by_cases hempty : items = []
  · subst hempty
    exact withDefault_none hnodup name hmem _ _
  · have hpart : listPart (items.map record) = some (.list (items.map record)) := by
      simp [listPart, hempty]
    rw [withDefault_encoded hnodup name _ (hpart ▸ hmem), listOf_list h hread]

theorem withDefault_vars (name : String) (v : Vars) (hmem : (name, varsPart v) ∈ parts) :
    withDefault (encoded enc parts) name .empty (vars f) = pure v := by
  by_cases hempty : v.isEmpty = true
  · have hnone : varsPart v = none := if_pos hempty
    obtain rfl : v = .empty := Vars.ext_entries (List.isEmpty_iff.1 hempty)
    exact withDefault_none hnodup name (hnone ▸ hmem) _ _
  · have hpart : varsPart v = some (ofVars v) := if_neg hempty
    rw [withDefault_encoded hnodup name _ (hpart ▸ hmem), vars_ofVars h]

theorem withDefault_option (name : String) (s : Option String)
    (hmem : (name, s.map .text) ∈ parts) :
    withDefault (encoded enc parts) name none (optionalText f) = pure s := by
  cases s with
  | none => exact withDefault_none hnodup name hmem _ _
  | some s => rw [withDefault_encoded hnodup name (.text s) hmem, optionalText_text h]

end

theorem trigger_record (t : Trigger) : trigger f (enc t.record) = pure t := by
  have hnodup : (t.parts.map (·.1)).Nodup := by
    show ["type", "branches", "paths", "cron"].Nodup
    decide
  rw [t.record_eq, trigger, h.record, pure_bind, ← encoded,
    required_encoded hnodup "type" (.text t.event.name) (by simp [Trigger.parts]), h.word, pure_bind,
    withDefault_texts h hnodup "branches" t.branches (by simp [Trigger.parts]), pure_bind,
    withDefault_texts h hnodup "paths" t.paths (by simp [Trigger.parts]), pure_bind,
    withDefault_option h hnodup "cron" t.cron (by simp [Trigger.parts]), pure_bind,
    Event.ofName?_name]

theorem service_record (s : Service) : service f (enc s.record) = pure s := by
  have hnodup : (s.parts.map (·.1)).Nodup := by
    show ["name", "image", "ports", "env"].Nodup
    decide
  rw [s.record_eq, service, h.record, pure_bind, ← encoded,
    required_encoded hnodup "name" (.text s.name) (by simp [Service.parts]), h.text, pure_bind,
    required_encoded hnodup "image" (.text s.image) (by simp [Service.parts]), h.text, pure_bind,
    withDefault_texts h hnodup "ports" s.ports (by simp [Service.parts]), pure_bind,
    withDefault_vars h hnodup "env" s.env (by simp [Service.parts]), pure_bind]

theorem artifact_record (a : Artifact) : artifact f (enc a.record) = pure a := by
  have hnodup : (a.parts.map (·.1)).Nodup := by
    show ["name", "paths"].Nodup
    decide
  rw [a.record_eq, artifact, h.record, pure_bind, ← encoded,
    required_encoded hnodup "name" (.text a.name) (by simp [Artifact.parts]), h.text, pure_bind,
    required_encoded hnodup "paths" (Record.texts a.paths) (by simp [Artifact.parts]),
    Record.texts, texts_list h, pure_bind]

theorem cache_record (c : Cache) : cache f (enc c.record) = pure c := by
  have hnodup : (c.parts.map (·.1)).Nodup := by
    show ["key", "paths"].Nodup
    decide
  rw [c.record_eq, cache, h.record, pure_bind, ← encoded,
    required_encoded hnodup "key" (.text c.key) (by simp [Cache.parts]), h.text, pure_bind,
    required_encoded hnodup "paths" (Record.texts c.paths) (by simp [Cache.parts]),
    Record.texts, texts_list h, pure_bind]

/-! ## Steps -/

omit h in
/-- Fields can be chosen by name before they are values. -/
theorem filter_encoded (p : String → Bool) (parts : List (String × Option Record)) :
    ((encoded enc parts).filter fun e => p e.1) = encoded enc (parts.filter fun e => p e.1) := by
  induction parts with
  | nil => rfl
  | cons part parts ih =>
    obtain ⟨name, value⟩ := part
    have hsplit : ∀ rest, encoded enc ((name, value) :: rest) =
        (value.map fun r => (name, enc r)).toList ++ encoded enc rest := by
      intro rest
      cases value <;> rfl
    rw [hsplit, List.filter_append, ih, List.filter_cons]
    by_cases hp : p name = true
    · rw [if_pos hp, hsplit]
      cases value <;> simp [hp]
    · rw [if_neg hp]
      cases value <;> simp [hp]

omit h in
/-- The fields of a step and those of its action are told apart by their names. -/
theorem partition_step (s : Step) :
    (encoded enc s.parts).partition (fun e => stepFields.contains e.1) =
      (encoded enc [("name", s.name.map .text), ("env", varsPart s.env),
        ("if", s.condition.map .text), ("working_directory", s.directory.map .text)],
        encoded enc s.action.parts) := by
  rw [List.partition_eq_filter_filter, filter_encoded (stepFields.contains ·)]
  refine Prod.ext ?_ ((filter_encoded (!stepFields.contains ·) s.parts).trans ?_)
  all_goals
    obtain ⟨name, action, env, condition, directory⟩ := s
    cases action <;> rfl

omit h in
/-- The variables of a record of content. -/
theorem contentVars?_record (v : Vars) :
    contentVars? (.record (v.entries.map fun e => (.text e.1, .text e.2))) = some v := by
  have hpairs : (v.entries.map fun e => (Content.text e.1, Content.text e.2)).mapM
      (fun e => do return (← contentText? e.1, ← contentText? e.2)) = some v.entries := by
    refine (mapM_eq_pure (m := Option) id ?_).trans ?_
    · intro e _
      rfl
    · rw [List.map_id]
      rfl
  rw [contentVars?, hpairs]
  exact congrArg some (Vars.ofList_entries v)

/-- The fields of an action are read as what they are, and the action is told from them. -/
theorem action?_content (a : Action) : ∃ contents,
    ((encoded enc a.parts).mapM fun e => do return (e.1, ← f.content e.2)) = pure contents ∧
      action? contents = some a := by
  cases a with
  | run command =>
    refine ⟨[("type", .text "run"), ("command", .text command)], ?_, rfl⟩
    simp [Action.parts, encoded, h.contentOfText]
  | uses id inputs =>
    by_cases hempty : inputs.isEmpty = true
    · obtain rfl : inputs = .empty := Vars.ext_entries (List.isEmpty_iff.1 hempty)
      refine ⟨[("type", .text "uses"), ("id", .text id)], ?_, rfl⟩
      simp [Action.parts, encoded, varsField, Vars.isEmpty, Vars.empty, h.contentOfText]
    · refine ⟨[("type", .text "uses"), ("id", .text id), ("with", .record (inputs.entries.map
        fun e => (.text e.1, .text e.2)))], ?_, ?_⟩
      · simp [Action.parts, encoded, varsField, hempty, h.contentOfText, h.contentOfVars]
      · have hinputs := contentVars?_record inputs
        simp [action?, contentField?, contentText?, hinputs]

theorem step_record (s : Step) : step f (enc s.record) = pure s := by
  obtain ⟨contents, hcontents, haction⟩ := action?_content h s.action
  have hnodup : ([("name", s.name.map Record.text), ("env", varsPart s.env),
      ("if", s.condition.map .text), ("working_directory", s.directory.map .text)].map
        (·.1)).Nodup := by
    show ["name", "env", "if", "working_directory"].Nodup
    decide
  -- The fields of the action stand between those of the step, so they are taken apart first.
  rw [s.record_eq, step, h.table, pure_bind, ← encoded, partition_step]
  dsimp only
  rw [withDefault_option h hnodup "name" s.name (by simp), pure_bind,
    withDefault_vars h hnodup "env" s.env (by simp), pure_bind,
    withDefault_option h hnodup "if" s.condition (by simp), pure_bind,
    withDefault_option h hnodup "working_directory" s.directory (by simp), pure_bind, hcontents,
    pure_bind, haction]

/-! ## Jobs and pipelines -/

theorem job_record (j : Job) : job f (enc j.record) = pure j := by
  have hnodup : (j.parts.map (·.1)).Nodup := by
    show ["name", "runs_on", "depends_on", "environment", "services", "steps", "artifacts", "cache",
      "condition"].Nodup
    decide
  rw [j.record_eq, job, h.record, pure_bind, ← encoded,
    required_encoded hnodup "name" (.text j.name) (by simp [Job.parts]), h.text, pure_bind,
    required_encoded hnodup "runs_on" (.text j.runsOn) (by simp [Job.parts]), h.text, pure_bind,
    withDefault_texts h hnodup "depends_on" j.dependsOn (by simp [Job.parts]), pure_bind,
    withDefault_vars h hnodup "environment" j.environment (by simp [Job.parts]), pure_bind,
    withDefault_listOf h hnodup "services" j.services (by simp [Job.parts])
      fun s _ => service_record h s, pure_bind,
    withDefault_encoded hnodup "steps" (.list (j.steps.map Step.record)) (by simp [Job.parts]),
    listOf_list h fun s _ => step_record h s, pure_bind,
    withDefault_listOf h hnodup "artifacts" j.artifacts (by simp [Job.parts])
      fun a _ => artifact_record h a, pure_bind,
    withDefault_listOf h hnodup "cache" j.cache (by simp [Job.parts])
      fun c _ => cache_record h c, pure_bind,
    withDefault_option h hnodup "condition" j.condition (by simp [Job.parts]), pure_bind]

/-- A pipeline is read back from its record. -/
theorem pipeline_record (p : Pipeline) : pipeline f (enc p.record) = pure p := by
  have hnodup : (p.parts.map (·.1)).Nodup := by
    show ["name", "triggers", "environment", "jobs"].Nodup
    decide
  rw [p.record_eq, pipeline, h.record, pure_bind, ← encoded,
    required_encoded hnodup "name" (.text p.name) (by simp [Pipeline.parts]), h.text, pure_bind,
    withDefault_encoded hnodup "triggers" (.list (p.triggers.map Trigger.record))
      (by simp [Pipeline.parts]), listOf_list h fun t _ => trigger_record h t, pure_bind,
    withDefault_vars h hnodup "environment" p.environment (by simp [Pipeline.parts]), pure_bind,
    withDefault_encoded hnodup "jobs" (.list (p.jobs.map Job.record)) (by simp [Pipeline.parts]),
    listOf_list h fun j _ => job_record h j, pure_bind]

end
end Stored

namespace Json

theorem ofItems_eq_map (items : List Record) : ofItems items = items.map ofRecord := by
  induction items with
  | nil => rfl
  | cons item items ih => rw [ofItems, ih, List.map_cons]

theorem ofFields_eq_map (entries : List (String × Record)) :
    ofFields entries = entries.map fun e => (some e.1, ofRecord e.2) := by
  induction entries with
  | nil => rfl
  | cons entry entries ih => rw [ofFields, ih, List.map_cons]

/-- The fields of an object are found. -/
theorem table?_ofFields (entries : List (String × Record)) :
    table? (.object (ofFields entries)) = some (entries.map fun e => (e.1, ofRecord e.2)) := by
  rw [table?, ofFields_eq_map]
  exact Stored.mapM_eq_pure _ fun e _ => rfl

/-- Variables lie flat in their object. -/
theorem depth_ofVars (v : Vars) : (ofRecord (ofVars v)).depth = 1 := by
  have hentries : ∀ entries : List (String × String),
      depthOfEntries (ofFields (entries.map fun e => (e.1, .text e.2))) = 0 := by
    intro entries
    induction entries with
    | nil => rfl
    | cons e entries ih => simp [ofFields, depthOfEntries, ih, ofRecord, depth]
  rw [ofVars, ofRecord, depth, hentries]

theorem content?_ofVars (v : Vars) : (ofRecord (ofVars v)).content? =
    some (.record (v.entries.map fun e => (.text e.1, .text e.2))) := by
  have hentries : ∀ entries : List (String × String),
      contentEntries? (ofFields (entries.map fun e => (e.1, .text e.2))) =
        some (entries.map fun e => (.text e.1, .text e.2)) := by
    intro entries
    induction entries with
    | nil => rfl
    | cons e entries ih => simp [ofFields, contentEntries?, ih, ofRecord, content?]
  rw [ofVars, ofRecord, content?, hentries]
  rfl

/-- JSON finds what a record was made of. -/
theorem format_carries : format.Carries ofRecord where
  text s := rfl
  optional s := rfl
  list items := congrArg pure (ofItems_eq_map items)
  record names entries := by
    show found (table? (.object (ofFields entries))) = _
    rw [table?_ofFields]
    rfl
  table entries := by
    show found (table? (.object (ofFields entries))) = _
    rw [table?_ofFields]
    rfl
  word s := rfl
  contentOfText s := rfl
  contentOfVars v := by
    -- What lies too deep in a step is refused, but variables lie flat.
    have hdepth : (ofRecord (ofVars v)).depth ≤ maxStepDepth := by
      rw [depth_ofVars]
      decide
    show (if (ofRecord (ofVars v)).depth ≤ maxStepDepth then found (ofRecord (ofVars v)).content?
      else failure) = _
    rw [if_pos hdepth, content?_ofVars]
    rfl

/-- The JSON text that is shown of a pipeline holds the pipeline, with all its lists and variables
in their order. -/
theorem pipeline?_renderPipeline (p : Pipeline) :
    pipeline? (CommandLine.renderPipeline p .json) = some p := by
  show pipeline? (print 0 p.record ++ "\n") = some p
  rw [pipeline?, ofText?_print]
  -- JSON needs no allowance: reading starts with none, and what is left of it is dropped.
  show ((Stored.pipeline format (ofRecord p.record)).run 0).bind (fun result => some result.1) = _
  rw [Stored.pipeline_record format_carries]
  rfl

end Json
end CiPipelines

import CiPipelines.Proofs.GithubTriggers

/-!
# What a GitHub workflow says

A workflow that was written for a pipeline is read as a pipeline again: the one that the workflow
says.  There the triggers of an event are one trigger, jobs go by their keys, a job in a container
runs on the usual runner, steps without anything to do are gone and a job that checked out nothing
has a step that does.  A workflow can be read as long as the keys of its jobs are not too long to
be read as keys.  What a workflow says is said again when it is written once more.
-/

namespace CiPipelines
namespace Github

open Outline

/-! ## What is said -/

/-- The steps of a job in a workflow. -/
def saidSteps (j : Job) : List Step :=
  let own := j.steps.filter fun s => !s.isVoid
  if j.hasCheckout then own else .uses checkoutAction :: own

/-- A job of a workflow. -/
def saidJob (keys : KeyTable) (j : Job) : Job where
  name := keys.key j.name
  runsOn := if j.runsOnImage then usualRunner else j.runsOn
  dependsOn := keys.keys j.dependsOn
  environment := j.environment
  services := j.services
  steps := saidSteps j
  artifacts := []
  cache := []
  condition := j.condition

/-- The keys of the jobs of a pipeline. -/
def keys (p : Pipeline) : KeyTable := .ofJobs .standard p.jobs

/-- The pipeline that a workflow says. -/
def said (p : Pipeline) : Pipeline where
  name := if p.name.isEmpty then "CI" else p.name
  triggers := saidTriggers p.triggers
  environment := p.environment
  jobs := p.jobs.map (saidJob (keys p))

/-! ## What can be written -/

/-- A service that can be written. -/
structure WritableService (s : Service) : Prop where
  texts : ∀ t ∈ s.texts, Text.Ordinary t
  name : IsFieldName s.name
  variableNames : ∀ name ∈ s.env.names, IsFieldName name

/-- A step that can be written. -/
structure WritableStep (s : Step) : Prop where
  texts : ∀ t ∈ s.texts, Text.Ordinary t
  variableNames : ∀ name ∈ s.env.names, IsFieldName name
  inputNames : ∀ name ∈ s.inputNames, IsFieldName name

/-- A job that can be written.  An image must fit on the line of a comment. -/
structure WritableJob (j : Job) : Prop where
  services : j.serviceNames.Nodup
  runner : j.runsOnImage = true → '\n' ∉ j.runsOn.toList
  texts : ∀ t ∈ j.texts, Text.Ordinary t
  fields : ∀ name ∈ j.variableNames ++ j.inputNames ++ j.serviceNames, IsFieldName name

/-- A pipeline that can be written. -/
structure Writable (p : Pipeline) : Prop where
  names : (p.jobs.map (·.name)).Nodup
  services : ∀ j ∈ p.jobs, j.serviceNames.Nodup
  runners : ∀ j ∈ p.jobs, j.runsOnImage = true → '\n' ∉ j.runsOn.toList
  texts : ∀ s ∈ p.texts, Text.Ordinary s
  fields : ∀ name ∈ p.variableNames ++ p.inputNames ++ p.serviceNames, IsFieldName name

namespace WritableJob

variable {j : Job} (h : WritableJob j)

include h

theorem variableNames {name : String} (hname : name ∈ j.variableNames) : IsFieldName name :=
  h.fields name (List.mem_append_left _ (List.mem_append_left _ hname))

theorem service {s : Service} (hs : s ∈ j.services) : WritableService s :=
  ⟨fun t ht => h.texts t (Job.mem_texts_of_service hs ht),
    h.fields _ (List.mem_append_right _ (List.mem_map.2 ⟨s, hs, rfl⟩)),
    fun _ hname => h.variableNames (Job.mem_variableNames_of_service hs hname)⟩

theorem step {s : Step} (hs : s ∈ j.steps) : WritableStep s :=
  ⟨fun t ht => h.texts t (Job.mem_texts_of_step hs ht),
    fun _ hname => h.variableNames (Job.mem_variableNames_of_step hs hname),
    fun _ hname => h.fields _ (List.mem_append_left _
      (List.mem_append_right _ (Job.mem_inputNames_of_step hs hname)))⟩

end WritableJob

theorem writableStep_checkout : WritableStep (.uses checkoutAction) :=
  ⟨by decide, by decide, by decide⟩

/-- A step of a workflow is a step that does something, or the checkout. -/
theorem of_mem_saidSteps {j : Job} {s : Step} (hs : s ∈ saidSteps j) :
    s = .uses checkoutAction ∨ s ∈ j.steps ∧ s.isVoid = false := by
  have hown : s ∈ j.steps.filter (fun s => !s.isVoid) → s ∈ j.steps ∧ s.isVoid = false :=
    fun hs => by simpa using List.mem_filter.1 hs
  unfold saidSteps at hs
  dsimp only at hs
  split at hs
  · exact .inr (hown hs)
  · exact (List.mem_cons.1 hs).imp_right hown

/-- The steps of a workflow can be written. -/
theorem WritableJob.saidStep {j : Job} (h : WritableJob j) {s : Step} (hs : s ∈ saidSteps j) :
    WritableStep s := by
  rcases of_mem_saidSteps hs with rfl | ⟨hs, -⟩
  · exact writableStep_checkout
  · exact h.step hs

theorem Writable.job {p : Pipeline} (h : Writable p) {j : Job} (hj : j ∈ p.jobs) :
    WritableJob j := by
  refine ⟨h.services j hj, h.runners j hj, fun t ht => h.texts t (Pipeline.mem_texts_of_job hj ht),
    fun name hname => ?_⟩
  simp only [List.mem_append] at hname
  refine h.fields name ?_
  simp only [List.mem_append]
  exact hname.imp (Or.imp (Pipeline.mem_variableNames_of_job hj)
    (Pipeline.mem_inputNames_of_job hj)) (Pipeline.mem_serviceNames_of_job hj)

/-! ## Services and steps -/

section

variable {levels : Nat}

theorem part_serviceLine {s : Service} (h : WritableService s) :
    Part (levels + 2) [s.name] true [serviceLine s] := by
  obtain ⟨hname, himage, hports, henv⟩ := Service.forall_texts.1 h.texts
  refine .shortField hname.chars h.name.2 (keyFits_of_isFieldName hname h.name) ?_
  exact (((Part.formatField (by decide) (.text himage)).append
    (.listField (by decide) hports)).append
    (.namedVarsField (by decide) henv h.variableNames)).fields
      (by decide : ["image", "ports", "env"].Nodup)

/-- What a reader finds under the name of a service. -/
def serviceNode (s : Service) : Node :=
  node (.fields (.field "image" (.text s.image) :: listField "ports" s.ports
    ++ varsField "env" s.env))

theorem lineNodes_services (services : List Service) :
    lineNodes (services.map serviceLine) = services.map fun s => (s.name, serviceNode s) :=
  lineNodes_map_field services (·.name) _

/-- A service is read back. -/
theorem readService_serviceNode (s : Service) : readService s.name (serviceNode s) = s := by
  simp [readService, serviceNode, Node.textAt?, Node.textsAt, Node.varsAt, List.lookup_append,
    List.lookup_cons]

/-- What a step does. -/
theorem part_actionLines {a : Action} (htexts : ∀ t ∈ a.texts, Text.Ordinary t)
    (hfields : ∀ name ∈ (Step.ofAction a).inputNames, IsFieldName name) :
    Part (levels + 1) ["uses", "with", "run"] true (actionLines a) := by
  cases a with
  | uses id inputs =>
    have hinputs : Part (levels + 1) ["with"] true (varsField "with" inputs) :=
      .namedVarsField (by decide) (fun t ht => htexts t (by simp [Action.texts, ht])) hfields
    exact ((Part.formatField (by decide) (.text (htexts id (by simp [Action.texts])))).append
      hinputs).mono (by decide : ["uses", "with"].Sublist ["uses", "with", "run"])
  | run command =>
    exact (Part.formatField (by decide) (.value (htexts command (by simp [Action.texts])))).mono
      (by decide : ["run"].Sublist ["uses", "with", "run"])

theorem items_stepOutline {s : Step} (h : WritableStep s) :
    Items (levels + 2) true [stepOutline s] := by
  obtain ⟨hname, haction, henv, hcondition, hdirectory⟩ := Step.forall_texts.1 h.texts
  refine .fields (((((Part.textField (by decide) hname).append
    (part_actionLines haction h.inputNames)).append
    (.valueField (by decide) hcondition)).append
    (.textField (by decide) hdirectory)).append
    (.namedVarsField (by decide) henv h.variableNames))
      (by decide : ["name", "uses", "with", "run", "if", "working-directory", "env"].Nodup) ?_
  cases s.action <;> simp [actionLines]

/-- A step is read back. -/
theorem readStep_stepOutline (s : Step) : readStep (node (stepOutline s)) = s := by
  obtain ⟨name, action, env, condition, directory⟩ := s
  cases action <;>
    simp [readStep, readAction, stepOutline, actionLines, Node.textAt?, Node.varsAt,
      List.lookup_append, List.lookup_cons]

theorem isFields_stepOutline (s : Step) : (node (stepOutline s)).isFields = true := by
  refine isFields_node_fields ?_
  simp only [lineKeys_append]
  cases s.action <;> simp [actionLines, lineKeys]

end

/-! ## Jobs -/

@[simp] theorem lineNodes_runnerLines (j : Job) : lineNodes (runnerLines j) =
    [("runs-on", .scalar (if j.runsOnImage then usualRunner else j.runsOn))] := by
  unfold runnerLines
  split <;> simp

theorem stepsOutline_eq (j : Job) : stepsOutline j = .list ((saidSteps j).map stepOutline) := by
  unfold stepsOutline saidSteps
  dsimp only
  split <;> rfl

/-- The fields of a job. -/
def jobLines (keys : KeyTable) (j : Job) : List (Line Outline) :=
  runnerLines j ++ listField "needs" (keys.keys j.dependsOn) ++ valueField "if" j.condition
    ++ varsField "env" j.environment
    ++ (if j.services.isEmpty then []
        else [.field "services" (.fields (j.services.map serviceLine))])
    ++ [.field "steps" (.list ((saidSteps j).map stepOutline))]

theorem jobLine_eq (keys : KeyTable) (j : Job) :
    jobLine keys j = .field (keys.key j.name) (.fields (jobLines keys j)) := by
  rw [jobLine, jobLines, stepsOutline_eq]

/-- The fields that a job can have. -/
def jobFields : List String := ["runs-on", "needs", "if", "env", "services", "steps"]

section

variable {levels : Nat} {j : Job} (h : WritableJob j)

include h

/-- The comment that names an image takes one line. -/
theorem part_runnerLines : Part levels ["runs-on"] true (runnerLines j) := by
  have hrunner : Text.Ordinary j.runsOn := h.texts _ (by simp [Job.texts])
  refine .choice (fun himage => ?_) fun _ => .formatField (by decide) (.text hrunner)
  refine (Part.comment fun c hc => ?_).append (.formatField (by decide) (.text (by decide)))
  rw [String.toList_append] at hc
  rcases List.mem_append.1 hc with hc | hc
  · have hwords : "converted from container image: ".toList.all
        (fun c => Text.isOrdinary c && c != '\n') = true := by decide
    simpa using List.all_eq_true.1 hwords c hc
  · exact ⟨hrunner.chars c hc, fun heq => h.runner himage (heq ▸ hc)⟩

theorem part_jobLines {keys : KeyTable} (hkeys : ∀ name, IsKey (keys.key name)) :
    Part (levels + 4) jobFields true (jobLines keys j) := by
  obtain ⟨-, -, -, henv, -, -, -, -, hcondition⟩ := Job.forall_texts.1 h.texts
  have hneeds : ∀ t ∈ keys.keys j.dependsOn, Text.Ordinary t := by
    intro t ht
    obtain ⟨name, -, rfl⟩ := List.mem_map.1 ht
    exact (hkeys name).ordinary
  have hservices : Part (levels + 4) ["services"] true (if j.services.isEmpty then []
      else [.field "services" (.fields (j.services.map serviceLine))]) := by
    refine .choice (fun _ => .absent) fun _ => .formatField (by decide) ?_
    have hlines : Part (levels + 3) j.serviceNames true (j.services.map serviceLine) :=
      .shortMap fun s hs => part_serviceLine (h.service hs)
    exact hlines.fields h.services
  have hsteps : Items (levels + 3) true ((saidSteps j).map stepOutline) :=
    .shortMap fun s hs => items_stepOutline (h.saidStep hs)
  exact (((((part_runnerLines h).append (.listField (by decide) hneeds)).append
    (.valueField (by decide) hcondition)).append
    (.namedVarsField (by decide) henv fun name hname => h.variableNames (by
      simp [Job.variableNames, hname]))).append hservices).append
    (.formatField (by decide) hsteps.list)

end

theorem map_readService (services : List Service) :
    ((services.map fun s => (s.name, serviceNode s)).map fun (name, service) =>
      readService name service) = services := by
  have hread : ((fun (x : String × Node) => readService x.1 x.2) ∘
      fun s : Service => (s.name, serviceNode s)) = id := funext readService_serviceNode
  rw [List.map_map]
  exact hread ▸ List.map_id _

/-- What is written for a job is read as the job that a workflow says. -/
theorem readJob_jobLines (settings : Settings) (keys : KeyTable) (j : Job) :
    readJob settings (keys.key j.name) (node (.fields (jobLines keys j))) = saidJob keys j := by
  -- Field by field: what the reader finds under a key is what the writer laid there.
  have hservices : (node (.fields (jobLines keys j))).entriesAt "services" =
      j.services.map fun s => (s.name, serviceNode s) := by
    cases hempty : j.services.isEmpty with
    | true =>
      simp [jobLines, Node.entriesAt, List.lookup_append, List.lookup_cons,
        List.isEmpty_iff.1 hempty]
    | false =>
      simp [jobLines, Node.entriesAt, List.lookup_append, List.lookup_cons, hempty,
        lineNodes_services]
  have hsteps : (((node (.fields (jobLines keys j))).itemsAt "steps").filter
      Node.isFields).map readStep = saidSteps j := by
    have hitems : (node (.fields (jobLines keys j))).itemsAt "steps" =
        (saidSteps j).map fun s => node (stepOutline s) := by
      simp [jobLines, Node.itemsAt, List.lookup_append, List.lookup_cons]
    have hfilter : (((saidSteps j).map fun s => node (stepOutline s)).filter Node.isFields) =
        (saidSteps j).map fun s => node (stepOutline s) := by
      refine List.filter_eq_self.2 fun n hn => ?_
      obtain ⟨s, -, rfl⟩ := List.mem_map.1 hn
      exact isFields_stepOutline s
    have hread : readStep ∘ (fun s => node (stepOutline s)) = id := funext readStep_stepOutline
    rw [hitems, hfilter, List.map_map, hread, List.map_id]
  have hrunner : ((node (.fields (jobLines keys j))).textsAt "runs-on").headD
      settings.defaultRunner = if j.runsOnImage then usualRunner else j.runsOn := by
    simp [jobLines, Node.textsAt, Node.texts]
  have hneeds : (node (.fields (jobLines keys j))).textsAt "needs" = keys.keys j.dependsOn := by
    simp [jobLines, Node.textsAt, List.lookup_append, List.lookup_cons]
  have henv : (node (.fields (jobLines keys j))).varsAt "env" = j.environment := by
    simp [jobLines, Node.varsAt, List.lookup_append, List.lookup_cons]
  have hif : (node (.fields (jobLines keys j))).textAt? "if" = j.condition := by
    simp [jobLines, Node.textAt?, List.lookup_append, List.lookup_cons]
  rw [readJob, hservices, map_readService, hsteps, hrunner, hneeds, henv, hif]
  rfl

/-! ## Workflows -/

section

variable {p : Pipeline}

/-- The fields that a workflow can have. -/
def rootFields : List String := ["name", "on", "env", "jobs"]

theorem isKey_keys (name : String) : IsKey ((keys p).key name) :=
  (KeyTable.key_ofJobs KeyRules.sound_standard p.jobs name).1

/-- The lines of a workflow. -/
theorem outline_eq (p : Pipeline) : outline p =
    [.field "name" (.text (said p).name), .empty] ++ triggerLines p.triggers ++ [.empty]
      ++ varsParagraph "env" p.environment
      ++ [.field "jobs" (.fields ((p.jobs.map fun j => .field ((keys p).key j.name)
        (.fields (jobLines (keys p) j))).intersperse .empty))] := by
  have hjobs : p.jobs.map (jobLine (keys p)) =
      p.jobs.map fun j => .field ((keys p).key j.name) (.fields (jobLines (keys p) j)) :=
    List.map_congr_left fun j _ => jobLine_eq (keys p) j
  rw [outline, ← hjobs]
  rfl

section

variable (h : Writable p)

include h

theorem Writable.name : Text.Ordinary (said p).name := by
  show Text.Ordinary (if p.name.isEmpty then "CI" else p.name)
  split
  · decide
  · exact h.texts p.name (by simp [Pipeline.texts])

/-- A workflow has fixed fields, and only the keys of its jobs can be too long. -/
theorem part_outline : Part 127 rootFields (p.jobs.all fun j => keyFits ((keys p).key j.name))
    (outline p) := by
  obtain ⟨-, htriggers, henv, -⟩ := Pipeline.forall_texts.1 h.texts
  have hjob : ∀ j ∈ p.jobs, Part 126 [(keys p).key j.name] (keyFits ((keys p).key j.name))
      [.field ((keys p).key j.name) (.fields (jobLines (keys p) j))] := by
    intro j hj
    have hbody : Written 126 true (.fields (jobLines (keys p) j)) :=
      (part_jobLines (h.job hj) isKey_keys).fields (by decide)
    have hkey : IsKey ((keys p).key j.name) := isKey_keys j.name
    exact (Part.field hkey.ordinary.chars hkey.ne_merge hbody).of_eq (Bool.and_true _)
  have hjobs : Part 127 ["jobs"] (p.jobs.all fun j => keyFits ((keys p).key j.name))
      [.field "jobs" (.fields ((p.jobs.map fun j => .field ((keys p).key j.name)
        (.fields (jobLines (keys p) j))).intersperse .empty))] :=
    .formatField (by decide) ((Outline.Part.map hjob).intersperse.fields
      (KeyTable.key_ofJobs_nodup KeyRules.sound_standard p.jobs h.names))
  have hname : Part 127 ["name"] true [.field "name" (.text (said p).name), .empty] :=
    (Part.formatField (by decide) (.text h.name)).append .empty
  rw [outline_eq]
  exact (((hname.append (part_triggerLines htriggers)).append .empty).append
    (.namedVarsParagraph (by decide) henv fun name hname => h.fields name (by
      simp [Pipeline.variableNames, hname]))).append hjobs

end

/-- The fields of a workflow. -/
theorem lineNodes_outline (p : Pipeline) : ∃ body, readTriggers body = saidTriggers p.triggers ∧
    lineNodes (outline p) = [("name", .scalar (said p).name), ("on", body)]
      ++ lineNodes (varsField "env" p.environment)
      ++ [("jobs", node (.fields ((p.jobs.map fun j => .field ((keys p).key j.name)
        (.fields (jobLines (keys p) j))).intersperse .empty)))] := by
  obtain ⟨body, htriggers, hread⟩ := readTriggers_triggerLines p.triggers
  refine ⟨body, hread, ?_⟩
  rw [outline_eq]
  simp [htriggers]

theorem isFields_jobLines (keys : KeyTable) (j : Job) :
    (node (.fields (jobLines keys j))).isFields = true :=
  isFields_node_fields (by simp [jobLines, lineKeys])

/-- The jobs of a workflow. -/
theorem entriesAt_jobs (p : Pipeline) : (Node.fields (lineNodes (outline p))).entriesAt "jobs" =
    p.jobs.map fun j => ((keys p).key j.name, node (.fields (jobLines (keys p) j))) := by
  obtain ⟨body, -, hnodes⟩ := lineNodes_outline p
  simp [hnodes, Node.entriesAt, List.lookup_cons, List.lookup_append, lineNodes_intersperse,
    lineNodes_map_field]

/-- The data of a workflow are read as the pipeline that it says. -/
theorem ofNode_outline (settings : Settings) (p : Pipeline) :
    ofNode settings (.fields (lineNodes (outline p))) = said p := by
  obtain ⟨body, hread, hnodes⟩ := lineNodes_outline p
  have hjobs : readJobs settings (.fields (lineNodes (outline p))) = (said p).jobs := by
    have hfilter : ((p.jobs.map fun j => ((keys p).key j.name,
        node (.fields (jobLines (keys p) j)))).filter fun (_, body) => body.isFields) =
        p.jobs.map fun j => ((keys p).key j.name, node (.fields (jobLines (keys p) j))) := by
      refine List.filter_eq_self.2 fun entry hentry => ?_
      obtain ⟨j, -, rfl⟩ := List.mem_map.1 hentry
      exact isFields_jobLines (keys p) j
    rw [readJobs, entriesAt_jobs, hfilter, List.map_map]
    exact List.map_congr_left fun j _ => readJob_jobLines settings (keys p) j
  have hname : (Node.fields (lineNodes (outline p))).textAt? "name" = some (said p).name := by
    simp [hnodes, Node.textAt?]
  have hon : (Node.fields (lineNodes (outline p))).get? "on" = some body := by
    simp [hnodes, List.lookup_cons]
  have henv : (Node.fields (lineNodes (outline p))).varsAt "env" = p.environment := by
    simp [hnodes, Node.varsAt, List.lookup_cons, List.lookup_append]
  rw [ofNode, hjobs, hname, hon, henv, Option.map_some, hread]
  rfl

/-- A pipeline that was written as a workflow is read as the pipeline that the workflow says,
unless the key of a job is too long to be read as a key. -/
theorem read_write_said (h : Writable p) (settings : Settings) : read settings (write p) =
    if p.jobs.all fun j => keyFits ((keys p).key j.name) then .ok (said p)
    else .error .notYaml := by
  rw [read, write, ((part_outline h).fields (by decide)).ofPipelineFile_print]
  split
  · exact congrArg Except.ok (ofNode_outline settings p)
  · rfl

/-! ## Saying it again -/

/-- Steps of a workflow are said again as they are. -/
theorem saidSteps_saidJob (keys : KeyTable) (j : Job) :
    saidSteps (saidJob keys j) = saidSteps j := by
  have hown : ∀ steps : List Step, (∀ s ∈ steps, s.isVoid = false) → (steps.any Step.isCheckout) →
      ∀ j : Job, j.steps = steps → saidSteps j = steps := by
    intro steps hvoid hcheckout j hj
    have hfilter : (j.steps.filter fun s => !s.isVoid) = steps := by
      rw [hj]
      exact List.filter_eq_self.2 fun s hs => by simp [hvoid s hs]
    have hhas : j.hasCheckout = true := by rw [Job.hasCheckout, hj, hcheckout]
    rw [saidSteps, hfilter, if_pos hhas]
  refine hown (saidSteps j) (fun s hs => ?_) ?_ (saidJob keys j) rfl
  · rcases of_mem_saidSteps hs with rfl | ⟨-, hfull⟩
    · decide
    · exact hfull
  · unfold saidSteps
    dsimp only
    split
    · rename_i hhas
      obtain ⟨s, hs, hcheckout⟩ := List.any_eq_true.1 hhas
      have hvoid := Step.isVoid_of_isCheckout hcheckout
      exact List.any_eq_true.2 ⟨s, List.mem_filter.2 ⟨hs, by simp [hvoid]⟩, hcheckout⟩
    · exact List.any_eq_true.2 ⟨_, List.mem_cons_self .., by decide⟩

/-- A job in a container is said to run on the usual runner. -/
theorem runsOnImage_saidJob (keys : KeyTable) (j : Job) :
    (saidJob keys j).runsOnImage = false := by
  have hrunsOn : (saidJob keys j).runsOn = if j.runsOnImage then usualRunner else j.runsOn := rfl
  rw [Job.runsOnImage, hrunsOn]
  split
  · decide
  · rename_i hlabel
    exact Bool.eq_false_iff.2 hlabel

/-- A job of a workflow can be written. -/
theorem WritableJob.said {j : Job} (h : WritableJob j) {keys : KeyTable}
    (hkeys : ∀ name, IsKey (keys.key name)) : WritableJob (saidJob keys j) := by
  obtain ⟨-, hrunsOn, -, henv, hservices, -, -, -, hcondition⟩ := Job.forall_texts.1 h.texts
  have hfields := h.fields
  simp only [List.forall_mem_append] at hfields
  obtain ⟨⟨hvariables, -⟩, hserviceNames⟩ := hfields
  obtain ⟨henvNames, hserviceEnv, -⟩ := Job.forall_variableNames.1 hvariables
  refine ⟨h.services, fun himage => ?_, Job.forall_texts.2 ⟨(hkeys j.name).ordinary, ?_,
    fun t ht => ?_, henv, hservices, fun s hs => (h.saidStep hs).texts,
    fun a ha => absurd ha List.not_mem_nil, fun c hc => absurd hc List.not_mem_nil, hcondition⟩, ?_⟩
  · rw [runsOnImage_saidJob] at himage
    cases himage
  · show Text.Ordinary (if j.runsOnImage then usualRunner else j.runsOn)
    split
    · decide
    · exact hrunsOn
  · obtain ⟨name, -, rfl⟩ := List.mem_map.1 ht
    exact (hkeys name).ordinary
  · simp only [List.forall_mem_append]
    refine ⟨⟨Job.forall_variableNames.2 ⟨henvNames, hserviceEnv, fun s hs =>
      (h.saidStep hs).variableNames⟩, fun name hname => ?_⟩, hserviceNames⟩
    obtain ⟨s, hs, hname⟩ := List.mem_flatMap.1 hname
    exact (h.saidStep hs).inputNames name hname

/-- What a workflow says can be written. -/
theorem Writable.said (h : Writable p) : Writable (said p) := by
  obtain ⟨-, htriggers, henv, -⟩ := Pipeline.forall_texts.1 h.texts
  have hjob : ∀ j ∈ (Github.said p).jobs, WritableJob j := by
    intro j hj
    obtain ⟨own, hown, rfl⟩ := List.mem_map.1 hj
    exact (h.job hown).said isKey_keys
  have hfields : ∀ {f : Job → List String}, (∀ j ∈ (Github.said p).jobs, ∀ name ∈ f j,
      name ∈ j.variableNames ++ j.inputNames ++ j.serviceNames) →
        ∀ name ∈ (Github.said p).jobs.flatMap f, IsFieldName name := by
    intro f hf name hname
    obtain ⟨j, hj, hname⟩ := List.mem_flatMap.1 hname
    exact (hjob j hj).fields name (hf j hj name hname)
  refine ⟨?_, fun j hj => (hjob j hj).services, fun j hj => (hjob j hj).runner,
    Pipeline.forall_texts.2 ⟨h.name, saidTriggers_texts htriggers, henv, fun j hj =>
      (hjob j hj).texts⟩, ?_⟩
  · have hkeys := KeyTable.key_ofJobs_nodup KeyRules.sound_standard p.jobs h.names
    rwa [Github.said, List.map_map]
  · have hown := h.fields
    simp only [List.forall_mem_append, Pipeline.variableNames] at hown ⊢
    exact ⟨⟨⟨hown.1.1.1, hfields fun j _ name hname => by simp [hname]⟩,
      hfields fun j _ name hname => by simp [hname]⟩, hfields fun j _ name hname => by simp [hname]⟩

theorem map_name_said : (said p).jobs.map (·.name) = p.jobs.map fun j => (keys p).key j.name := by
  rw [said, List.map_map]
  rfl

/-- Jobs that go by their keys keep them. -/
theorem key_said (name : String) : (keys (said p)).key ((keys p).key name) = (keys p).key name :=
  KeyTable.key_key KeyRules.sound_standard (fun _ => KeyRules.cleanName_of_isKey) map_name_said name

/-- What a workflow says is said again when it is written once more. -/
theorem said_said (htimes : ∀ t ∈ p.triggers, t.event = .schedule → t.cron ≠ none) :
    said (said p) = said p := by
  have hneeds : ∀ names, (keys (said p)).keys ((keys p).keys names) = (keys p).keys names :=
    KeyTable.keys_keys KeyRules.sound_standard (fun _ => KeyRules.cleanName_of_isKey) map_name_said
  have hjob : ∀ j, saidJob (keys (said p)) (saidJob (keys p) j) = saidJob (keys p) j := by
    intro j
    have hlabel : (if (saidJob (keys p) j).runsOnImage then usualRunner
        else (saidJob (keys p) j).runsOn) = (saidJob (keys p) j).runsOn := by
      rw [runsOnImage_saidJob]
      rfl
    rw [saidJob, hlabel, saidSteps_saidJob]
    simp only [saidJob, key_said, hneeds]
  -- A workflow without a name gets one, so what it says has a name that is kept.
  have hname : (said (said p)).name = (said p).name := by
    have hne : ¬(said p).name.isEmpty = true := by
      show ¬(if p.name.isEmpty then "CI" else p.name).isEmpty = true
      split
      · decide
      · assumption
    rw [said, if_neg hne]
  have hjobs : (said p).jobs.map (saidJob (keys (said p))) = (said p).jobs := by
    rw [said, List.map_map]
    exact List.map_congr_left fun j _ => hjob j
  show Pipeline.mk (said (said p)).name (saidTriggers (saidTriggers p.triggers)) p.environment
    ((said p).jobs.map (saidJob (keys (said p)))) = said p
  rw [hname, hjobs, saidTriggers_saidTriggers htimes]
  rfl

end

end Github
end CiPipelines

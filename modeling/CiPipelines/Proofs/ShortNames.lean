import CiPipelines.Proofs.CircleciNormalForm
import CiPipelines.Proofs.GithubWorkflows
import CiPipelines.Proofs.GitlabFiles
import CiPipelines.Proofs.KeyLengths

/-!
# Pipelines of short names

What a pipeline of ordinary texts writes as a key has to be short, and jobs have names of their own.
Three conditions ask for more and more of this.  `ShortVariableNames` speaks of variables, inputs and
actions, and is enough for CircleCI, where no names of services are written.  `ShortServiceNames`
adds the services and that a runner takes one line, for GitHub and GitLab.  Under both the keys of
the jobs have to be short besides; `ShortJobNames` asks that of their names, so that all three
platforms can be written and read.  Only the name of a pipeline may be longer, and only CircleCI
writes it as a key.
-/

namespace CiPipelines

open Outline

/-- A pipeline of ordinary texts, with names of their own for its jobs and short names for its
variables, the inputs of its actions and the actions. -/
structure ShortVariableNames (p : Pipeline) : Prop where
  names : (p.jobs.map (·.name)).Nodup
  texts : ∀ s ∈ p.texts, Text.Ordinary s
  fields : ∀ name ∈ p.variableNames ++ p.inputNames, IsFieldName name
  actions : ∀ j ∈ p.jobs, ∀ id ∈ j.actionIds, IsFieldName id

instance (p : Pipeline) : Decidable (ShortVariableNames p) :=
  decidable_of_iff
    ((p.jobs.map (·.name)).Nodup ∧ (∀ s ∈ p.texts, Text.Ordinary s) ∧
      (∀ name ∈ p.variableNames ++ p.inputNames, IsFieldName name) ∧
      ∀ j ∈ p.jobs, ∀ id ∈ j.actionIds, IsFieldName id)
    ⟨fun ⟨hnames, htexts, hfields, hactions⟩ => ⟨hnames, htexts, hfields, hactions⟩,
      fun h => ⟨h.names, h.texts, h.fields, h.actions⟩⟩

namespace ShortVariableNames

variable {p : Pipeline} (h : ShortVariableNames p)

include h

theorem variableNames {name : String} (hname : name ∈ p.variableNames) : IsFieldName name :=
  h.fields name (List.mem_append_left _ hname)

theorem inputNames {name : String} (hname : name ∈ p.inputNames) : IsFieldName name :=
  h.fields name (List.mem_append_right _ hname)

theorem jobTexts {j : Job} (hj : j ∈ p.jobs) : ∀ s ∈ j.texts, Text.Ordinary s :=
  fun _ hs => h.texts _ (Pipeline.mem_texts_of_job hj hs)

theorem circleciStep {j : Job} (hj : j ∈ p.jobs) {s : Step} (hs : s ∈ j.steps) :
    Circleci.WritableStep s := by
  have hmerge : ∀ {names : List String}, (∀ name ∈ names, IsFieldName name) → "<<" ∉ names :=
    fun hnames hmem => (hnames _ hmem).2 rfl
  refine ⟨fun t ht => h.jobTexts hj t (Job.mem_texts_of_step hs ht), hmerge fun name hname => ?_,
    hmerge fun name hname => ?_, fun _ haction => ?_⟩
  · exact h.variableNames (Pipeline.mem_variableNames_of_job hj (Job.mem_variableNames_of_step hs hname))
  · exact h.inputNames (Pipeline.mem_inputNames_of_job hj (Job.mem_inputNames_of_step hs hname))
  · exact (h.actions j hj "<<" (List.mem_filterMap.2 ⟨s, hs, haction⟩)).2 rfl

theorem circleciJob {j : Job} (hj : j ∈ p.jobs) : Circleci.WritableJob j := by
  obtain ⟨-, hrunner, -, henv, hservices, -, hartifacts, hcache, -⟩ :=
    Job.forall_texts.1 (h.jobTexts hj)
  refine ⟨hrunner, soundVars_of_fieldNames henv fun name hname => ?_, fun s hs => ?_,
    fun s hs => h.circleciStep hj hs, hartifacts, hcache⟩
  · exact h.variableNames (Pipeline.mem_variableNames_of_job hj (by simp [Job.variableNames, hname]))
  · have htexts := hservices s hs
    simp only [Service.texts, List.forall_mem_append, List.forall_mem_cons] at htexts
    exact ⟨htexts.1.2.1, soundVars_of_fieldNames htexts.2 fun name hname => h.variableNames
      (Pipeline.mem_variableNames_of_job hj (Job.mem_variableNames_of_service hs hname))⟩

theorem circleci : Circleci.Writable p where
  names := h.names
  environment := soundVars_of_fieldNames
    (fun t ht => h.texts t (by simp [Pipeline.texts, ht]))
    fun name hname => h.variableNames (by simp [Pipeline.variableNames, hname])
  jobs j hj := h.circleciJob hj

/-- Variables of the pipeline have short names. -/
theorem keyFits_name {vars : Vars} (htexts : ∀ t ∈ vars.texts, t ∈ p.texts)
    (hnames : ∀ name ∈ vars.names, name ∈ p.variableNames ++ p.inputNames) :
    ∀ name ∈ vars.names, keyFits name = true :=
  List.all_eq_true.1 (fits_of_texts (fun t ht => h.texts t (htexts t ht))
    fun name hname => h.fields name (hnames name hname))

theorem fits_stepKeys {j : Job} (hj : j ∈ p.jobs) {s : Step} (hs : s ∈ j.steps) :
    ∀ key ∈ Circleci.stepKeys s, keyFits key = true := by
  have htexts : ∀ t ∈ s.texts, t ∈ p.texts :=
    fun t ht => Pipeline.mem_texts_of_job hj (Job.mem_texts_of_step hs ht)
  intro key hkey
  -- The keys of a step are its variables, its inputs, and the command that it runs with inputs.
  rcases Circleci.mem_stepKeys hkey with hmem | hmem | ⟨-, hid⟩
  · refine h.keyFits_name (fun t ht => htexts t (by simp [Step.texts, ht])) (fun name hname => ?_)
      key hmem
    exact List.mem_append_left _
      (Pipeline.mem_variableNames_of_job hj (Job.mem_variableNames_of_step hs hname))
  · cases haction : s.action with
    | run command => simp [Step.inputNames, Step.inputs?, haction] at hmem
    | uses id inputs =>
      have hinputs : s.inputNames = inputs.names := by simp [Step.inputNames, Step.inputs?, haction]
      refine h.keyFits_name (fun t ht => htexts t ?_) (fun name hname => ?_) key (hinputs ▸ hmem)
      · simp [Step.texts, haction, Action.texts, ht]
      · exact List.mem_append_right _
          (Pipeline.mem_inputNames_of_job hj (Job.mem_inputNames_of_step hs (hinputs ▸ hname)))
  · refine keyFits_of_isFieldName (h.texts key (htexts key ?_))
      (h.actions j hj key (List.mem_filterMap.2 ⟨s, hs, hid⟩))
    cases haction : s.action with
    | run command => simp [Step.actionId?, haction] at hid
    | uses id inputs =>
      obtain rfl : id = key := by simpa [Step.actionId?, haction] using hid
      simp [Step.texts, haction, Action.texts]

/-- With short keys for its name and its jobs a pipeline fits into a file of CircleCI. -/
theorem circleciFits (hname : keyFits (Circleci.workflowName p.name) = true)
    (hkeys : ∀ j ∈ p.jobs, keyFits ((Circleci.keys p).key j.name) = true) :
    Circleci.fits p = true := by
  refine Bool.and_eq_true_iff.2 ⟨hname, List.all_eq_true.2 fun j hj => ?_⟩
  have hvariable : ∀ {name : String}, name ∈ p.variableNames →
      name ∈ p.variableNames ++ p.inputNames := fun hmem => List.mem_append_left _ hmem
  simp only [Circleci.jobKeys, List.all_eq_true, List.forall_mem_append, List.forall_mem_cons]
  refine ⟨⟨⟨?_, fun name hmem => ?_⟩, fun name hmem => ?_⟩, fun key hmem => ?_⟩
  · exact hkeys j hj
  · obtain ⟨s, hs, hmem⟩ := List.mem_flatMap.1 hmem
    refine h.keyFits_name (fun t ht => ?_) (fun name hname => hvariable ?_) name hmem
    · exact Pipeline.mem_texts_of_job hj (Job.mem_texts_of_service hs (by simp [Service.texts, ht]))
    · exact Pipeline.mem_variableNames_of_job hj (Job.mem_variableNames_of_service hs hname)
  · rcases Vars.mem_names_insertAll hmem with hmem | hmem
    · exact h.keyFits_name (fun t ht => by simp [Pipeline.texts, ht])
        (fun name hname => hvariable (by simp [Pipeline.variableNames, hname])) name hmem
    · refine h.keyFits_name (fun t ht => ?_) (fun name hname => hvariable ?_) name hmem
      · exact Pipeline.mem_texts_of_job hj (by simp [Job.texts, ht])
      · exact Pipeline.mem_variableNames_of_job hj (by simp [Job.variableNames, hname])
  · obtain ⟨s, hs, hmem⟩ := List.mem_flatMap.1 hmem
    exact h.fits_stepKeys hj hs key hmem

/-- With short keys for its name and its jobs a pipeline is read as the file says it. -/
theorem reads_circleci (settings : Settings)
    (hname : keyFits (Circleci.workflowName p.name) = true)
    (hkeys : ∀ j ∈ p.jobs, keyFits ((Circleci.keys p).key j.name) = true) :
    Circleci.read settings (Circleci.write p) = .ok (Circleci.said p) := by
  rw [Circleci.read_write_said h.circleci settings, if_pos (h.circleciFits hname hkeys)]

end ShortVariableNames

/-! ## Names of services -/

/-- Such a pipeline in which the services of a job, too, have names of their own and short ones, and
a runner takes one line. -/
structure ShortServiceNames (p : Pipeline) : Prop extends ShortVariableNames p where
  services : ∀ j ∈ p.jobs, j.serviceNames.Nodup
  serviceNames : ∀ name ∈ p.serviceNames, IsFieldName name
  runners : ∀ j ∈ p.jobs, '\n' ∉ j.runsOn.toList

instance (p : Pipeline) : Decidable (ShortServiceNames p) :=
  decidable_of_iff
    (ShortVariableNames p ∧ (∀ j ∈ p.jobs, j.serviceNames.Nodup) ∧
      (∀ name ∈ p.serviceNames, IsFieldName name) ∧ ∀ j ∈ p.jobs, '\n' ∉ j.runsOn.toList)
    ⟨fun ⟨h, hservices, hnames, hrunners⟩ => ⟨h, hservices, hnames, hrunners⟩,
      fun h => ⟨h.toShortVariableNames, h.services, h.serviceNames, h.runners⟩⟩

namespace ShortServiceNames

variable {p : Pipeline} (h : ShortServiceNames p)

include h

theorem fieldNames :
    ∀ name ∈ p.variableNames ++ p.inputNames ++ p.serviceNames, IsFieldName name :=
  List.forall_mem_append.2 ⟨h.fields, h.serviceNames⟩

theorem github : Github.Writable p :=
  ⟨h.names, h.services, fun j hj _ => h.runners j hj, h.texts, h.fieldNames⟩

theorem gitlab : Gitlab.Writable p := ⟨h.names, h.texts, fun _ => h.variableNames⟩

/-- With short keys for its jobs a pipeline is read as the workflow says it. -/
theorem reads_github (settings : Settings)
    (hkeys : ∀ j ∈ p.jobs, keyFits ((Github.keys p).key j.name) = true) :
    Github.read settings (Github.write p) = .ok (Github.said p) := by
  rw [Github.read_write_said h.github settings, if_pos (List.all_eq_true.2 hkeys)]

end ShortServiceNames

/-! ## Short names for the jobs -/

/-- Such a pipeline whose jobs have short names, and not more jobs than a machine word can count. -/
structure ShortJobNames (p : Pipeline) : Prop extends ShortServiceNames p where
  jobNames : ∀ j ∈ p.jobs, j.name.length ≤ 500
  count : p.jobs.length < 2 ^ 64

instance (p : Pipeline) : Decidable (ShortJobNames p) :=
  decidable_of_iff
    (ShortServiceNames p ∧ (∀ j ∈ p.jobs, j.name.length ≤ 500) ∧ p.jobs.length < 2 ^ 64)
    ⟨fun ⟨h, hnames, hcount⟩ => ⟨h, hnames, hcount⟩,
      fun h => ⟨h.toShortServiceNames, h.jobNames, h.count⟩⟩

namespace ShortJobNames

variable {p : Pipeline} (h : ShortJobNames p)

include h

/-- Jobs of short names have short keys. -/
theorem keyFits_key {r : KeyRules} (hr : r.Sound)
    (hclean : ∀ name, (r.clean name).length ≤ max 3 name.length) {j : Job} (hj : j ∈ p.jobs) :
    keyFits ((KeyTable.ofJobs r p.jobs).key j.name) = true :=
  Outline.keyFits_key hr hclean h.count (h.jobNames j hj)

theorem keyFits_standard :
    ∀ j ∈ p.jobs, keyFits ((KeyTable.ofJobs .standard p.jobs).key j.name) = true :=
  fun _ => h.keyFits_key KeyRules.sound_standard KeyRules.length_cleanName_le

theorem keyFits_gitlab : ∀ j ∈ p.jobs, keyFits ((Gitlab.keys p).key j.name) = true :=
  fun _ => h.keyFits_key Gitlab.sound_keyRules KeyRules.length_cleanName_le

/-- A pipeline that has a short name itself fits into a file of CircleCI. -/
theorem circleciFits (hname : keyFits (Circleci.workflowName p.name) = true) :
    Circleci.fits p = true := h.toShortVariableNames.circleciFits hname h.keyFits_standard

/-- The pipeline is read as the workflow says it. -/
theorem reads_github (settings : Settings) :
    Github.read settings (Github.write p) = .ok (Github.said p) :=
  h.toShortServiceNames.reads_github settings h.keyFits_standard

theorem reads_gitlab (settings : Settings) :
    Gitlab.read settings (Gitlab.write p) = .ok (Gitlab.said settings p) := by
  rw [Gitlab.read_write_said h.gitlab settings, if_pos (List.all_eq_true.2 h.keyFits_gitlab)]

theorem reads_circleci (settings : Settings)
    (hname : keyFits (Circleci.workflowName p.name) = true) :
    Circleci.read settings (Circleci.write p) = .ok (Circleci.said p) :=
  h.toShortVariableNames.reads_circleci settings hname h.keyFits_standard

end ShortJobNames
end CiPipelines

import CiPipelines.Proofs.GithubWorkflows

/-!
# GitHub workflows are read back

A pipeline in the canonical form of GitHub has nothing that a workflow cannot say.  Written as a
workflow and read again it comes back with each job under its key, as long as the keys of the jobs
are not too long to be read as keys; a workflow with a longer key cannot be read at all.
-/

namespace CiPipelines
namespace Github

open Outline

/-! ## Canonical form -/

/-- What starts a workflow, in the order in which a workflow says it. -/
structure CanonicalTriggers (triggers : List Trigger) : Prop where
  ne_nil : triggers ≠ []
  form : ∃ (push pull : Option Trigger) (times : List String) (manual : Option Trigger),
    triggers = inOrder push pull times manual ∧
      (∀ t ∈ push, IsFiltered .push t) ∧ (∀ t ∈ pull, IsFiltered .pullRequest t) ∧
        ∀ t ∈ manual, t = .on .manual

/-- A job that a workflow can say. -/
structure CanonicalJob (j : Job) : Prop where
  runner : j.runsOnImage = false
  artifacts : j.artifacts = []
  cache : j.cache = []
  services : j.serviceNames.Nodup
  checkout : j.hasCheckout = true
  steps : ∀ s ∈ j.steps, s.isVoid = false

/-- A pipeline that a workflow can say. -/
structure Canonical (p : Pipeline) : Prop where
  name : p.name ≠ ""
  triggers : CanonicalTriggers p.triggers
  names : (p.jobs.map (·.name)).Nodup
  jobs : ∀ j ∈ p.jobs, CanonicalJob j
  texts : ∀ s ∈ p.texts, Text.Ordinary s
  fields : ∀ name ∈ p.variableNames ++ p.inputNames ++ p.serviceNames, IsFieldName name

/-! ## Canonical pipelines are said as they are -/

theorem CanonicalTriggers.saidTriggers {triggers : List Trigger} (h : CanonicalTriggers triggers) :
    saidTriggers triggers = triggers := by
  obtain ⟨push, pull, times, manual, rfl, hpush, hpull, hmanual⟩ := h.form
  exact saidTriggers_inOrder hpush hpull hmanual h.ne_nil

theorem CanonicalJob.saidJob {j : Job} (h : CanonicalJob j) (keys : KeyTable) :
    saidJob keys j = { j with name := keys.key j.name, dependsOn := keys.keys j.dependsOn } := by
  have hown : (j.steps.filter fun s => !s.isVoid) = j.steps :=
    List.filter_eq_self.2 fun s hs => by simp [h.steps s hs]
  have hsteps : saidSteps j = j.steps := by rw [saidSteps, hown, if_pos h.checkout]
  rw [Github.saidJob, hsteps, h.runner, ← h.artifacts, ← h.cache]
  rfl

section

variable {p : Pipeline} (h : Canonical p)

include h

theorem Canonical.writable : Writable p where
  names := h.names
  services j hj := (h.jobs j hj).services
  runners j hj himage := by simp [(h.jobs j hj).runner] at himage
  texts := h.texts
  fields := h.fields

/-- A canonical pipeline is said with its jobs under their keys. -/
theorem Canonical.said : said p = p.renamed (keys p) := by
  have hname : ¬p.name.isEmpty = true := fun hempty => h.name (String.isEmpty_iff.1 hempty)
  have hjobs : p.jobs.map (saidJob (keys p)) = (p.renamed (keys p)).jobs :=
    List.map_congr_left fun j hj => (h.jobs j hj).saidJob (keys p)
  rw [Github.said, if_neg hname, h.triggers.saidTriggers, hjobs]
  rfl

/-- A canonical pipeline that was written as a workflow is read back with each job under its key,
unless one of the keys is too long to be read as a key. -/
theorem read_write_github (settings : Settings) : read settings (write p) =
    if p.jobs.all fun j => keyFits ((keys p).key j.name) then .ok (p.renamed (keys p))
    else .error .notYaml := by
  rw [← h.said]
  exact read_write_said h.writable settings

end

/-- A pipeline whose jobs would share a key, with a dependency that no job has. -/
def twinJobs : Pipeline where
  name := "CI"
  triggers := [⟨.push, ["main", "release/*"], [], none⟩, .atTimes "0 4 * * *", .on .manual]
  environment := ⟨[("RUST_LOG", "yes")], by decide⟩
  jobs := [
    { Job.new "Unit Tests" "ubuntu-latest" with
      services := [⟨"db", "postgres:16", ["5432:5432"], ⟨[("USER", "ci")], by decide⟩⟩]
      steps := [.uses "actions/checkout@v4", .run "cargo build\n\ncargo test"] },
    { Job.new "unit tests" "ubuntu-latest" with
      dependsOn := ["Unit Tests", "lint"]
      steps := [.uses "actions/checkout@v4"]
      condition := some "success()" }]

theorem canonical_twinJobs : Canonical twinJobs where
  name := by decide
  triggers := ⟨by decide, some ⟨.push, ["main", "release/*"], [], none⟩, none, ["0 4 * * *"],
    some (.on .manual), rfl, fun _ ht => Option.some.inj ht ▸ ⟨rfl, by decide, by decide, rfl⟩,
    fun _ ht => absurd ht (by simp), fun _ ht => (Option.some.inj ht).symm⟩
  names := by decide
  jobs j hj := by
    rcases List.mem_cons.1 hj with rfl | hj
    · exact ⟨by decide, rfl, rfl, by decide, by decide, by decide⟩
    · rcases List.mem_singleton.1 hj with rfl
      exact ⟨by decide, rfl, rfl, by decide, by decide, by decide⟩
  texts := by decide
  fields := by decide

theorem read_write_twinJobs :
    read {} (write twinJobs) = .ok (twinJobs.renamed (keys twinJobs)) := by
  refine (read_write_github canonical_twinJobs {}).trans (if_pos (List.all_eq_true.2 ?_))
  intro j hj
  have hlength : ∀ j ∈ twinJobs.jobs, ((keys twinJobs).key j.name).toList.length ≤ 511 := by decide
  exact keyFits_of_length (isKey_keys j.name).ordinary.chars (hlength j hj)

/-- A pipeline with one job, of a long name. -/
def longJob : Pipeline where
  name := "CI"
  triggers := [.on .push]
  environment := .empty
  jobs := [{ Job.new longName "ubuntu-latest" with steps := [.uses "actions/checkout@v4"] }]

theorem canonical_longJob : Canonical longJob where
  name := by decide
  triggers := ⟨by decide, some (.on .push), none, [], none, rfl,
    fun _ ht => Option.some.inj ht ▸ ⟨rfl, by decide, by decide, rfl⟩,
    fun _ ht => absurd ht (by simp), fun _ ht => absurd ht (by simp)⟩
  names := by simp [longJob]
  jobs j hj := by
    rcases List.mem_singleton.1 hj with rfl
    exact ⟨by decide, rfl, rfl, by decide, by decide, by decide⟩
  texts s hs := by
    have htexts : s = "CI" ∨ s = longName ∨ s = "ubuntu-latest" ∨ s = "actions/checkout@v4" := by
      simpa [Pipeline.texts, longJob, Trigger.texts, Trigger.on, Vars.texts, Vars.empty, Job.texts,
        Job.new, Step.texts, Step.uses, Step.ofAction, Action.texts] using hs
    rcases htexts with rfl | rfl | rfl | rfl
    · decide
    · exact isKey_longName.ordinary
    · decide
    · decide
  fields name hname := by
    simp [Pipeline.variableNames, Pipeline.inputNames, Pipeline.serviceNames, longJob, Job.new,
      Job.variableNames, Job.inputNames, Job.serviceNames, Vars.empty, Vars.names, Step.uses,
      Step.ofAction, Step.inputNames, Step.inputs?] at hname

theorem not_read_write_longJob :
    Canonical longJob ∧ read {} (write longJob) ≠ .ok (longJob.renamed (keys longJob)) := by
  refine ⟨canonical_longJob, ?_⟩
  have hkey : (keys longJob).key longName = longName :=
    KeyTable.key_ofJobs_single (KeyRules.cleanName_of_isKey isKey_longName)
      List.not_mem_nil
  have hfit : (longJob.jobs.all fun j => keyFits ((keys longJob).key j.name)) = false := by
    show (keyFits ((keys longJob).key longName) && true) = false
    rw [hkey, keyFits_longName]
    rfl
  rw [read_write_said canonical_longJob.writable, hfit]
  intro heq
  cases heq

end Github
end CiPipelines

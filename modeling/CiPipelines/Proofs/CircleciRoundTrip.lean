import CiPipelines.Proofs.CircleciFiles

/-!
# CircleCI pipelines are read back

A pipeline in the canonical form of CircleCI has nothing that a CircleCI file cannot say.  The
pipeline comes back with each job under its key, as long as nothing that is written as a key is too
long to be read as one; a file with a longer key cannot be read at all.
-/

namespace CiPipelines
namespace Circleci

open Outline

/-! ## Canonical form -/

/-- A job that a CircleCI file can say, with its dependencies under the keys of a table. -/
structure CanonicalJob (keys : KeyTable) (j : Job) : Prop where
  runner : j.runsOnImage = true
  needs : (keys.keys j.dependsOn).Nodup
  condition : j.condition = none
  services : ∀ s ∈ j.services, s.ports = [] ∧ s.name = Service.nameOfImage s.image
  artifacts : (j.artifacts.map (·.name)).Nodup
  paths : ∀ a ∈ j.artifacts, a.paths ≠ []
  checkout : checkout ∈ j.steps
  steps : ∀ s ∈ j.steps, CanonicalStep s

/-- A pipeline that a CircleCI file can say. -/
structure Canonical (p : Pipeline) : Prop where
  name : p.name = "Pipeline"
  triggers : p.triggers = [.on .push]
  environment : p.environment = .empty
  names : (p.jobs.map (·.name)).Nodup
  jobs : ∀ j ∈ p.jobs, CanonicalJob (keys p) j
  texts : ∀ s ∈ p.texts, Text.Ordinary s
  merge : "<<" ∉ p.variableNames ++ p.inputNames

/-! ## Canonical pipelines are said as they are -/

theorem CanonicalJob.saidJob {keys : KeyTable} {j : Job} (h : CanonicalJob keys j) :
    saidJob keys .empty j =
      { j with name := keys.key j.name, dependsOn := keys.keys j.dependsOn } := by
  have hneeds : addMissing [] (keys.keys j.dependsOn) = keys.keys j.dependsOn :=
    foldl_addNew h.needs
  have henv : Vars.empty.insertAll j.environment.entries = j.environment :=
    Vars.ofList_entries j.environment
  have hservices : j.services.map saidService = j.services := by
    refine (List.map_congr_left fun s hs => ?_).trans (List.map_id _)
    obtain ⟨hports, hname⟩ := h.services s hs
    rw [saidService, ← hports, ← hname]
    rfl
  have hcontents := saidContents_eq h.checkout h.steps h.artifacts h.paths
  rw [Circleci.saidJob, if_pos h.runner, hneeds, henv, hservices, hcontents, ← h.condition]

theorem CanonicalStep.writable {s : Step} (h : CanonicalStep s)
    (htexts : ∀ t ∈ s.texts, Text.Ordinary t) (hmerge : "<<" ∉ s.env.names ++ s.inputNames) :
    WritableStep s := by
  rw [List.mem_append, not_or] at hmerge
  refine ⟨htexts, hmerge.1, hmerge.2, fun hne heq => ?_⟩
  cases h with
  | checkout => exact hne rfl
  | run => exact hne rfl
  | @command id inputs hblank hversion hpath hcheckout hkind =>
    obtain rfl : id = "<<" := Option.some.inj heq
    have hinputs : inputs.isEmpty = false := by
      simpa [Step.inputNames, Step.inputs?, Step.ofAction, Vars.names, Vars.isEmpty] using hne
    exact hkind hinputs (by decide)

section

variable {p : Pipeline} (h : Canonical p)

include h

theorem Canonical.writableJob {j : Job} (hj : j ∈ p.jobs) : WritableJob j := by
  have htexts : ∀ t ∈ j.texts, Text.Ordinary t :=
    fun t ht => h.texts t (Pipeline.mem_texts_of_job hj ht)
  have hmerge : "<<" ∉ j.variableNames ++ j.inputNames := by
    intro hmem
    refine h.merge ?_
    rcases List.mem_append.1 hmem with hmem | hmem
    · exact List.mem_append_left _ (Pipeline.mem_variableNames_of_job hj hmem)
    · exact List.mem_append_right _ (Pipeline.mem_inputNames_of_job hj hmem)
  obtain ⟨-, hrunner, -, henv, hservices, hsteps, hartifacts, hcache, -⟩ :=
    Job.forall_texts.1 htexts
  refine ⟨hrunner, soundVars_of_texts henv fun hmem => hmerge ?_, fun s hs => ?_, fun s hs => ?_,
    hartifacts, hcache⟩
  · simp [Job.variableNames, hmem]
  · have hservice := hservices s hs
    simp only [Service.texts, List.forall_mem_append, List.forall_mem_cons] at hservice
    refine ⟨hservice.1.2.1, soundVars_of_texts hservice.2 fun hmem => hmerge ?_⟩
    exact List.mem_append_left _ (Job.mem_variableNames_of_service hs hmem)
  · refine ((h.jobs j hj).steps s hs).writable (hsteps s hs) fun hmem => hmerge ?_
    rcases List.mem_append.1 hmem with hmem | hmem
    · exact List.mem_append_left _ (Job.mem_variableNames_of_step hs hmem)
    · exact List.mem_append_right _ (Job.mem_inputNames_of_step hs hmem)

theorem Canonical.writable : Writable p where
  names := h.names
  environment := by
    rw [h.environment]
    exact soundVars_empty
  jobs j hj := h.writableJob hj

/-- A canonical pipeline is said with its jobs under their keys. -/
theorem Canonical.said : said p = p.renamed (keys p) := by
  have hjobs : p.jobs.map (saidJob (keys p) p.environment) = (p.renamed (keys p)).jobs := by
    rw [h.environment]
    exact List.map_congr_left fun j hj => (h.jobs j hj).saidJob
  rw [Circleci.said, hjobs, ← h.triggers, ← h.name, ← h.environment]
  rfl

/-- A canonical pipeline that was written for CircleCI is read back with each job under its key,
unless something that is written as a key is too long to be read as one. -/
theorem read_write_circleci (settings : Settings) : read settings (write p) =
    if fits p then .ok (p.renamed (keys p)) else .error .notYaml := by
  rw [← h.said]
  exact read_write_said h.writable settings

end

/-- A pipeline with a job that leaves caches and artifacts behind, and another that would share
its key. -/
def cachedJobs : Pipeline where
  name := "Pipeline"
  triggers := [.on .push]
  environment := .empty
  jobs := [
    { Job.new "Unit Tests" "cimg/node:20.11" with
      environment := ⟨[("NODE_ENV", "test")], by decide⟩
      services := [⟨"postgres", "cimg/postgres:16", [], ⟨[("PGUSER", "ci")], by decide⟩⟩]
      steps := [checkout, .ofAction (.uses "node/install" ⟨[("yarn", "true")], by decide⟩),
        ⟨some "Test", .run "yarn install\nyarn test", .empty, none, some "web"⟩]
      artifacts := [⟨"reports", ["junit.xml", "coverage"]⟩, ⟨"logs", ["web.log"]⟩]
      cache := [⟨"yarn", ["node_modules"]⟩] },
    { Job.new "unit tests" "cimg/node:20.11" with
      dependsOn := ["Unit Tests", "lint"]
      steps := [checkout] }]

theorem canonical_cachedJobs : Canonical cachedJobs where
  name := rfl
  triggers := rfl
  environment := rfl
  names := by decide
  jobs j hj := by
    rcases List.mem_cons.1 hj with rfl | hj
    · refine ⟨by decide, by decide, rfl, by decide, by decide, by decide, by decide, ?_⟩
      intro s hs
      simp only [List.mem_cons, List.not_mem_nil, or_false] at hs
      rcases hs with rfl | rfl | rfl
      · exact .checkout
      · exact .command (by decide) (by decide) (by decide) (by decide) fun _ => by decide
      · exact .run (by decide)
    · rcases List.mem_singleton.1 hj with rfl
      refine ⟨by decide, by decide, rfl, by decide, by decide, by decide, by decide, ?_⟩
      intro s hs
      rw [List.mem_singleton.1 hs]
      exact .checkout
  texts := by decide
  merge := by decide

theorem fits_cachedJobs : fits cachedJobs = true := by
  have hkeys : ∀ j ∈ cachedJobs.jobs, ∀ key ∈ jobKeys (keys cachedJobs) cachedJobs.environment j,
      Text.Ordinary key ∧ key.toList.length ≤ 511 := by decide
  refine Bool.and_eq_true_iff.2 ⟨keyFits_workflowName_pipeline, ?_⟩
  refine List.all_eq_true.2 fun j hj => List.all_eq_true.2 fun key hkey => ?_
  exact keyFits_of_length (hkeys j hj key hkey).1.chars (hkeys j hj key hkey).2

theorem read_write_cachedJobs :
    read {} (write cachedJobs) = .ok (cachedJobs.renamed (keys cachedJobs)) :=
  (read_write_circleci canonical_cachedJobs {}).trans (if_pos fits_cachedJobs)

/-- A pipeline with one job, of a long name. -/
def longJob : Pipeline where
  name := "Pipeline"
  triggers := [.on .push]
  environment := .empty
  jobs := [{ Job.new longName "cimg/base:stable" with steps := [checkout] }]

theorem canonical_longJob : Canonical longJob where
  name := rfl
  triggers := rfl
  environment := rfl
  names := by simp [longJob]
  jobs j hj := by
    rcases List.mem_singleton.1 hj with rfl
    refine ⟨by decide, by simp [Job.new, KeyTable.keys], rfl, by simp [Job.new],
      by simp [Job.new], by simp [Job.new], List.mem_singleton_self _, ?_⟩
    intro s hs
    rw [List.mem_singleton.1 hs]
    exact .checkout
  texts s hs := by
    have htexts : s = "Pipeline" ∨ s = longName ∨ s = "cimg/base:stable" ∨ s = "Checkout" ∨
        s = "actions/checkout@v4" := by
      simpa [Pipeline.texts, longJob, Trigger.texts, Trigger.on, Vars.texts, Vars.empty, Job.texts,
        Job.new, Step.texts, checkout, Step.named, Step.uses, Step.ofAction, Action.texts] using hs
    rcases htexts with rfl | rfl | rfl | rfl | rfl
    · decide
    · exact isKey_longName.ordinary
    · decide
    · decide
    · decide
  merge hmem := by
    simp [Pipeline.variableNames, Pipeline.inputNames, longJob, Job.new, Job.variableNames,
      Job.inputNames, Vars.empty, Vars.names, checkout, Step.named, Step.uses, Step.ofAction,
      Step.inputNames, Step.inputs?] at hmem

/-- The key of the long name is too long to be read. -/
theorem fits_longJob : fits longJob = false := by
  have hkey : (keys longJob).key longName = longName :=
    KeyTable.key_ofJobs_single (KeyRules.cleanName_of_isKey isKey_longName) List.not_mem_nil
  have hlong : keyFits ((keys longJob).key longName) = false := by rw [hkey, keyFits_longName]
  have hkeys : (longJob.jobs.all fun j =>
      (jobKeys (keys longJob) longJob.environment j).all keyFits) = false := by
    refine List.all_eq_false.2 ⟨_, List.mem_singleton_self _, ?_⟩
    simp [jobKeys, Job.new, hlong]
  rw [fits, hkeys, Bool.and_false]

theorem not_read_write_longJob_circleci :
    Canonical longJob ∧ read {} (write longJob) ≠ .ok (longJob.renamed (keys longJob)) := by
  refine ⟨canonical_longJob, ?_⟩
  rw [read_write_said canonical_longJob.writable, fits_longJob]
  intro heq
  cases heq

end Circleci
end CiPipelines

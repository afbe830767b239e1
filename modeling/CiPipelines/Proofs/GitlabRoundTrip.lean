import CiPipelines.Proofs.GitlabFiles

/-!
# GitLab pipelines are read back

A pipeline in the canonical form of GitLab has nothing that a GitLab file cannot say: its steps are
the lines of scripts, and what a file leaves out is what the settings say.  Its jobs stand beside
the keywords of the file, and come back as jobs, each under its key, as long as the keys are not
too long to be read as keys; a file with a longer key cannot be read at all.
-/

namespace CiPipelines
namespace Gitlab

open Outline

/-! ## Canonical form -/

/-- A job that a GitLab file can say. -/
structure CanonicalJob (settings : Settings) (j : Job) : Prop where
  runner : j.runsOn = settings.defaultRunner ∨ j.runsOnImage = true
  services : ∀ s ∈ j.services, s.ports = []
  steps : ∃ commands : List String, commands ≠ [] ∧ j.steps = commands.map .run ∧
    ∀ c ∈ commands, Text.isBlank c.toList = false
  artifacts : j.artifacts.length ≤ 1 ∧ ∀ a ∈ j.artifacts, a.paths ≠ []
  cache : ∀ c ∈ j.cache, c.paths ≠ []

/-- A pipeline that a GitLab file can say. -/
structure Canonical (settings : Settings) (p : Pipeline) : Prop where
  name : p.name = "Pipeline"
  triggers : p.triggers = [{ Trigger.on .push with branches := [settings.defaultBranch] }]
  names : (p.jobs.map (·.name)).Nodup
  jobs : ∀ j ∈ p.jobs, CanonicalJob settings j
  texts : ∀ s ∈ p.texts, Text.Ordinary s
  fields : ∀ name ∈ p.variableNames, IsFieldName name

/-! ## Canonical pipelines are said as they are -/

/-- A single artifact with paths is said as it is. -/
theorem saidArtifacts_of_length {artifacts : List Artifact} (hlength : artifacts.length ≤ 1)
    (hpaths : ∀ a ∈ artifacts, a.paths ≠ []) : saidArtifacts artifacts = artifacts := by
  match artifacts with
  | [] => rfl
  | [a] =>
    obtain ⟨name, paths⟩ := a
    obtain ⟨path, paths, rfl⟩ := List.exists_cons_of_ne_nil (hpaths _ (List.mem_cons_self ..))
    simp [saidArtifacts]

section

variable {settings : Settings}

theorem CanonicalJob.saidJob {j : Job} (h : CanonicalJob settings j) (keys : KeyTable) :
    saidJob settings keys j =
      { j with name := keys.key j.name, dependsOn := keys.keys j.dependsOn } := by
  have hrunner : (if j.runsOnImage then j.runsOn else settings.defaultRunner) = j.runsOn := by
    split
    · rfl
    · rename_i hlabel
      exact (h.runner.resolve_right hlabel).symm
  have hservices : (j.services.map fun s => { s with ports := [] }) = j.services := by
    refine (List.map_congr_left fun s hs => ?_).trans (List.map_id _)
    rw [← h.services s hs]
    rfl
  have hsteps : (script j).map .run = j.steps := by
    obtain ⟨commands, hne, hsteps, hblank⟩ := h.steps
    rw [script_of_commands hne hsteps hblank, hsteps]
  have hcache : (j.cache.filter fun c => !c.paths.isEmpty) = j.cache :=
    List.filter_eq_self.2 fun c hc => by simp [h.cache c hc]
  rw [Gitlab.saidJob, hrunner, hservices, hsteps, hcache,
    saidArtifacts_of_length h.artifacts.1 h.artifacts.2]

variable {p : Pipeline} (h : Canonical settings p)

include h

theorem Canonical.writable : Writable p := ⟨h.names, h.texts, h.fields⟩

/-- A canonical pipeline is said with its jobs under their keys. -/
theorem Canonical.said : said settings p = p.renamed (keys p) := by
  have hjobs : p.jobs.map (saidJob settings (keys p)) = (p.renamed (keys p)).jobs :=
    List.map_congr_left fun j hj => (h.jobs j hj).saidJob (keys p)
  rw [Gitlab.said, hjobs, ← h.triggers, ← h.name]
  rfl

/-- A canonical pipeline that was written for GitLab is read back with each job under its key,
unless one of the keys is too long to be read as a key. -/
theorem read_write_gitlab : read settings (write p) =
    if p.jobs.all fun j => keyFits ((keys p).key j.name) then .ok (p.renamed (keys p))
    else .error .notYaml := by
  rw [← h.said]
  exact read_write_said h.writable settings

end

/-- A pipeline with a job named like a keyword and a job named like its key. -/
def keywordJobs : Pipeline where
  name := "Pipeline"
  triggers := [{ Trigger.on .push with branches := ["main"] }]
  environment := ⟨[("CARGO_TERM_COLOR", "always")], by decide⟩
  jobs := [
    { Job.new "image" "rust:1.80" with
      services := [⟨"db", "postgres:16", [], ⟨[("POSTGRES_USER", "ci")], by decide⟩⟩]
      steps := [.run "cargo build\n\ncargo test", .run "cargo doc"]
      cache := [⟨"cargo", ["target"]⟩] },
    { Job.new "Image-Job" "ubuntu-latest" with
      dependsOn := ["image", "default"]
      steps := [.run "echo done"]
      artifacts := [⟨"docs", ["target/doc"]⟩]
      condition := some "$CI_COMMIT_BRANCH == \"main\"" }]

theorem canonical_keywordJobs : Canonical {} keywordJobs where
  name := rfl
  triggers := rfl
  names := by decide
  jobs j hj := by
    rcases List.mem_cons.1 hj with rfl | hj
    · exact ⟨.inr (by decide), by decide,
        ⟨["cargo build\n\ncargo test", "cargo doc"], by decide, rfl, by decide⟩, by decide,
        by decide⟩
    · rcases List.mem_singleton.1 hj with rfl
      exact ⟨.inl rfl, by decide, ⟨["echo done"], by decide, rfl, by decide⟩, by decide, by decide⟩
  texts := by decide
  fields := by decide

theorem read_write_keywordJobs :
    read {} (write keywordJobs) = .ok (keywordJobs.renamed (keys keywordJobs)) := by
  refine (read_write_gitlab canonical_keywordJobs).trans (if_pos (List.all_eq_true.2 ?_))
  intro j hj
  have hlength : ∀ j ∈ keywordJobs.jobs, ((keys keywordJobs).key j.name).toList.length ≤ 511 := by
    decide
  exact keyFits_of_length (isKey_keys _ j.name).ordinary.chars (hlength j hj)

/-- A pipeline with one job, of a long name. -/
def longJob : Pipeline where
  name := "Pipeline"
  triggers := [{ Trigger.on .push with branches := ["main"] }]
  environment := .empty
  jobs := [{ Job.new longName "ubuntu-latest" with steps := [.run "make"] }]

theorem canonical_longJob : Canonical {} longJob where
  name := rfl
  triggers := rfl
  names := by simp [longJob]
  jobs j hj := by
    rcases List.mem_singleton.1 hj with rfl
    exact ⟨.inl rfl, by simp [Job.new], ⟨["make"], by decide, rfl, by decide⟩,
      by simp [Job.new], by simp [Job.new]⟩
  texts s hs := by
    have htexts : s = "Pipeline" ∨ s = "main" ∨ s = longName ∨ s = "ubuntu-latest" ∨ s = "make" := by
      simpa [Pipeline.texts, longJob, Trigger.texts, Trigger.on, Vars.texts, Vars.empty, Job.texts,
        Job.new, Step.texts, Step.run, Step.ofAction, Action.texts] using hs
    rcases htexts with rfl | rfl | rfl | rfl | rfl
    · decide
    · decide
    · exact isKey_longName.ordinary
    · decide
    · decide
  fields name hname := by
    simp [Pipeline.variableNames, longJob, Job.new, Job.variableNames, Vars.empty, Vars.names,
      Step.run, Step.ofAction] at hname

theorem longName_not_keyword : longName ∉ keywords := by
  have hlength : ∀ w ∈ keywords, w.toList.length ≤ 13 := by decide
  intro hmem
  have hlong := hlength longName hmem
  rw [length_longName] at hlong
  exact absurd hlong (by decide)

theorem not_read_write_longJob_gitlab :
    Canonical {} longJob ∧ read {} (write longJob) ≠ .ok (longJob.renamed (keys longJob)) := by
  refine ⟨canonical_longJob, ?_⟩
  have hkey : (keys longJob).key longName = longName :=
    KeyTable.key_ofJobs_single (KeyRules.cleanName_of_isKey isKey_longName) longName_not_keyword
  have hfit : (longJob.jobs.all fun j => keyFits ((keys longJob).key j.name)) = false := by
    show (keyFits ((keys longJob).key longName) && true) = false
    rw [hkey, keyFits_longName]
    rfl
  rw [read_write_said canonical_longJob.writable, hfit]
  intro heq
  cases heq

end Gitlab
end CiPipelines

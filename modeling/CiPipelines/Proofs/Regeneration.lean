import CiPipelines.Conversion
import CiPipelines.Proofs.ShortNames

/-!
# Writing what was read

Writing a pipeline and reading it again can lose some of it and change some.  It does so once: what
was read is written as a file that is read and written again without any change.  For CircleCI the
name of the pipeline has to be short, since it is written as a key.
-/

namespace CiPipelines

open Outline

namespace ShortJobNames

variable {p : Pipeline} (h : ShortJobNames p)

include h

/-- A workflow that was read is written, read and written again as it is. -/
theorem rewrite_github (settings : Settings)
    (htimes : ∀ t ∈ p.triggers, t.event = .schedule → t.cron ≠ none) : ∃ q r,
      Github.read settings (Github.write p) = .ok q ∧
        Github.read settings (Github.write q) = .ok r ∧ Github.write r = Github.write q := by
  have hagain : ∀ j ∈ (Github.said p).jobs,
      keyFits ((Github.keys (Github.said p)).key j.name) = true := by
    intro j hj
    obtain ⟨own, hown, rfl⟩ := List.mem_map.1 hj
    exact (congrArg keyFits (Github.key_said own.name)).trans
      (h.keyFits_key KeyRules.sound_standard KeyRules.length_cleanName_le hown)
  have hsecond := Github.read_write_said h.github.said settings
  rw [if_pos (List.all_eq_true.2 hagain), Github.said_said htimes] at hsecond
  exact ⟨Github.said p, Github.said p, h.reads_github settings, hsecond, rfl⟩

/-- A GitLab file that was read is written, read and written again as it is. -/
theorem rewrite_gitlab {settings : Settings} (hrunner : Text.Ordinary settings.defaultRunner)
    (hbranch : Text.Ordinary settings.defaultBranch) : ∃ q r,
      Gitlab.read settings (Gitlab.write p) = .ok q ∧
        Gitlab.read settings (Gitlab.write q) = .ok r ∧ Gitlab.write r = Gitlab.write q := by
  have hagain : ∀ j ∈ (Gitlab.said settings p).jobs,
      keyFits ((Gitlab.keys (Gitlab.said settings p)).key j.name) = true := by
    intro j hj
    obtain ⟨own, hown, rfl⟩ := List.mem_map.1 hj
    exact (congrArg keyFits (Gitlab.key_said settings p own.name)).trans
      (h.keyFits_key Gitlab.sound_keyRules KeyRules.length_cleanName_le hown)
  have hsecond := Gitlab.read_write_said (h.gitlab.said hrunner hbranch) settings
  rw [if_pos (List.all_eq_true.2 hagain), Gitlab.said_said] at hsecond
  exact ⟨Gitlab.said settings p, Gitlab.said settings p, h.reads_gitlab settings, hsecond, rfl⟩

/-- A CircleCI file that was read is written, read and written again as it is. -/
theorem rewrite_circleci (settings : Settings)
    (hname : keyFits (Circleci.workflowName p.name) = true) : ∃ q r,
      Circleci.read settings (Circleci.write p) = .ok q ∧
        Circleci.read settings (Circleci.write q) = .ok r ∧
          Circleci.write r = Circleci.write q := by
  have hfits := h.circleciFits hname
  have hsecond := Circleci.read_write_said (h.circleci.said hfits) settings
  rw [if_pos (Circleci.fits_said h.circleci hfits), Circleci.said_said h.circleci hfits] at hsecond
  exact ⟨Circleci.said p, Circleci.trimmed (Circleci.said p), h.reads_circleci settings hname,
    hsecond, Circleci.write_trimmed _⟩

end ShortJobNames

namespace Conversion

theorem read_github (settings : Settings) (text : String) :
    read settings .github text = (Github.read settings text).mapError (.malformed .github) := rfl

theorem read_gitlab (settings : Settings) (text : String) :
    read settings .gitlab text = (Gitlab.read settings text).mapError (.malformed .gitlab) := rfl

theorem read_circleci (settings : Settings) (text : String) :
    read settings .circleci text = (Circleci.read settings text).mapError (.malformed .circleci) :=
  rfl

/-- Once a pipeline of short names was written and read, writing and reading it again changes no
character of what is written. -/
theorem write_read_write_read {settings : Settings}
    (hrunner : Text.Ordinary settings.defaultRunner)
    (hbranch : Text.Ordinary settings.defaultBranch) {p : Pipeline} (h : ShortJobNames p)
    (htimes : ∀ t ∈ p.triggers, t.event = .schedule → t.cron ≠ none) {platform : Platform}
    (hplatform : platform ∈ [Platform.github, .gitlab, .circleci])
    (hname : platform = .circleci → keyFits (Circleci.workflowName p.name) = true) :
    ∃ first second q r, write platform p = .ok first ∧ read settings platform first = .ok q ∧
      write platform q = .ok second ∧ read settings platform second = .ok r ∧
        write platform r = .ok second := by
  simp only [List.mem_cons, List.not_mem_nil, or_false] at hplatform
  rcases hplatform with rfl | rfl | rfl
  · obtain ⟨q, r, hfirst, hsecond, hwrite⟩ := h.rewrite_github settings htimes
    refine ⟨Github.write p, Github.write q, q, r, rfl, ?_, rfl, ?_, congrArg Except.ok hwrite⟩
    · rw [read_github, hfirst]
      rfl
    · rw [read_github, hsecond]
      rfl
  · obtain ⟨q, r, hfirst, hsecond, hwrite⟩ := h.rewrite_gitlab hrunner hbranch
    refine ⟨Gitlab.write p, Gitlab.write q, q, r, rfl, ?_, rfl, ?_, congrArg Except.ok hwrite⟩
    · rw [read_gitlab, hfirst]
      rfl
    · rw [read_gitlab, hsecond]
      rfl
  · obtain ⟨q, r, hfirst, hsecond, hwrite⟩ := h.rewrite_circleci settings (hname rfl)
    refine ⟨Circleci.write p, Circleci.write q, q, r, rfl, ?_, rfl, ?_, congrArg Except.ok hwrite⟩
    · rw [read_circleci, hfirst]
      rfl
    · rw [read_circleci, hsecond]
      rfl

/-- A pipeline with jobs that would share a key, a dependency that no job has, steps with nothing to
do, no checkout, an action that looks like a step of CircleCI, and artifacts of one name. -/
def messyJobs : Pipeline where
  name := "Release: Nightly"
  triggers := [.atTimes "0 4 * * *", ⟨.push, ["main", "main"], [], none⟩]
  environment := ⟨[("CI", "true")], by decide⟩
  jobs := [
    { Job.new "Unit Tests" "ubuntu-latest" with
      environment := ⟨[("CI", "yes")], by decide⟩
      services := [⟨"cache", "redis:7", ["6379:6379"], .empty⟩]
      steps := [.run " \n", .ofAction (.uses "run" ⟨[("shell", "bash")], by decide⟩),
        .uses "actions/setup-node@v4", .run "npm ci\n\nnpm test"]
      artifacts := [⟨"logs", ["a.log"]⟩, ⟨"logs", ["b.log"]⟩, ⟨"none", []⟩] },
    { Job.new "unit tests" "node:20" with
      dependsOn := ["Unit Tests", "lint", "Unit Tests"]
      condition := some "always()" }]

theorem shortJobNames_messyJobs : ShortJobNames messyJobs := by decide

theorem keyFits_messyJobs : keyFits (Circleci.workflowName messyJobs.name) = true :=
  keyFits_of_length (by decide : Text.Ordinary (Circleci.workflowName messyJobs.name)).chars
    (by decide)

theorem write_read_messyJobs : ∃ first second q r, write .circleci messyJobs = .ok first ∧
    read {} .circleci first = .ok q ∧ write .circleci q = .ok second ∧
      read {} .circleci second = .ok r ∧ write .circleci r = .ok second :=
  write_read_write_read (by decide) (by decide) shortJobNames_messyJobs (by decide) (by decide)
    fun _ => keyFits_messyJobs

/-- A pipeline of a long name. -/
def longTitle : Pipeline :=
  { Pipeline.new longName with jobs := [Job.new "build" "ubuntu-latest"] }

theorem shortJobNames_longTitle : ShortJobNames longTitle where
  names := by simp [longTitle]
  texts s hs := by
    have htexts : s = longName ∨ s = "build" ∨ s = "ubuntu-latest" := by
      simpa [Pipeline.texts, longTitle, Pipeline.new, Vars.texts, Vars.empty, Job.texts,
        Job.new] using hs
    rcases htexts with rfl | rfl | rfl
    · exact isKey_longName.ordinary
    · decide
    · decide
  fields name hname := by
    simp [Pipeline.variableNames, Pipeline.inputNames, longTitle, Pipeline.new, Job.new,
      Job.variableNames, Job.inputNames, Vars.empty, Vars.names] at hname
  actions j hj id hid := by
    obtain rfl := List.mem_singleton.1 hj
    exact absurd hid List.not_mem_nil
  services j hj := by
    obtain rfl := List.mem_singleton.1 hj
    exact List.nodup_nil
  serviceNames name hname := by
    simp [Pipeline.serviceNames, longTitle, Pipeline.new, Job.new, Job.serviceNames] at hname
  runners j hj := by
    obtain rfl := List.mem_singleton.1 hj
    decide
  jobNames j hj := by
    obtain rfl := List.mem_singleton.1 hj
    decide
  count := by
    show 1 < 2 ^ 64
    decide

/-- A long name is the name of the workflow, which cannot be read. -/
theorem workflowName_longName : Circleci.workflowName longName = longName := by
  have hne : ∀ w : String, w.toList.length < 1025 → (longName == w) = false := by
    intro w hw
    refine beq_eq_false_iff_ne.2 ?_
    rintro rfl
    exact absurd (length_longName ▸ hw) (Nat.lt_irrefl 1025)
  rw [Circleci.workflowName, KeyRules.cleanName_of_isKey isKey_longName]
  simp [hne "job" (by decide), hne "version" (by decide)]

theorem not_write_read_longTitle : ShortJobNames longTitle ∧
    (∀ t ∈ longTitle.triggers, t.event = .schedule → t.cron ≠ none) ∧
      ∃ first, write .circleci longTitle = .ok first ∧
        read {} .circleci first = .error (.malformed .circleci .notYaml) := by
  refine ⟨shortJobNames_longTitle, fun t ht => absurd ht List.not_mem_nil, Circleci.write longTitle, rfl,
    ?_⟩
  have hname : longTitle.name = longName := rfl
  have hfit : Circleci.fits longTitle = false := by
    rw [Circleci.fits, hname, workflowName_longName, keyFits_longName, Bool.false_and]
  rw [read_circleci, Circleci.read_write_said shortJobNames_longTitle.circleci, hfit]
  rfl

end Conversion
end CiPipelines

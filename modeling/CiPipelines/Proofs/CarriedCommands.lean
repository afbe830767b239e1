import CiPipelines.Proofs.Regeneration
import Mathlib.Data.List.Basic

/-!
# Commands are carried

What the jobs of a pipeline run is what is read of a file that was written for it: job by job the
same commands, character by character.  Only blank commands are left out.  GitLab knows commands
alone, so there a job must have some and nothing else that becomes one; on CircleCI an action called
`run` would be read as a command.
-/

namespace CiPipelines

/-- A step that stays has the command that it has. -/
theorem Step.fullCommand?_of_full {s : Step} (h : s.isVoid = false) : s.fullCommand? = s.command? := by
  rw [fullCommand?, h, if_neg Bool.false_ne_true]

theorem Step.fullCommand?_of_void {s : Step} (h : s.isVoid = true) : s.fullCommand? = none :=
  if_pos h

/-- Leaving out blank steps leaves the commands that are not blank. -/
theorem filterMap_command?_filter (steps : List Step) :
    (steps.filter fun s => !s.isVoid).filterMap Step.command? =
      steps.filterMap Step.fullCommand? := by
  rw [List.filterMap_filter]
  refine List.filterMap_congr fun s _ => ?_
  rw [Step.fullCommand?]
  cases s.isVoid <;> rfl

theorem filterMap_command?_run (commands : List String) :
    (commands.map Step.run).filterMap Step.command? = commands := by
  rw [List.filterMap_map]
  exact List.filterMap_some

namespace Github

theorem commands_saidJob (keys : KeyTable) (j : Job) :
    (saidJob keys j).commands = j.fullCommands := by
  show (saidSteps j).filterMap Step.command? = _
  rw [saidSteps]
  split
  · exact filterMap_command?_filter j.steps
  · rw [List.filterMap_cons_none rfl]
    exact filterMap_command?_filter j.steps

end Github

namespace Gitlab

/-- A job that GitLab carries: it has a command, all in the directory of the repository, and no
actions but checkouts. -/
structure Carried (j : Job) : Prop where
  commands : j.fullCommands ≠ []
  directories : ∀ s ∈ j.steps, s.directory = none
  actions : ∀ id ∈ j.actionIds, mentions id "checkout" = true

theorem scriptLine?_eq {s : Step} (hdirectory : s.directory = none)
    (haction : ∀ id ∈ s.actionId?, mentions id "checkout" = true) :
    scriptLine? s = s.fullCommand? := by
  obtain ⟨name, action, env, condition, directory⟩ := s
  obtain rfl : directory = none := hdirectory
  rw [scriptLine?, Step.fullCommand?]
  split
  · rfl
  · cases action with
    | run command => rfl
    | uses id inputs => exact if_pos (haction id rfl)

theorem commands_saidJob (settings : Settings) (keys : KeyTable) {j : Job} (h : Carried j) :
    (saidJob settings keys j).commands = j.fullCommands := by
  have hlines : j.steps.filterMap scriptLine? = j.fullCommands := by
    refine List.filterMap_congr fun s hs => scriptLine?_eq (h.directories s hs) fun id hid => ?_
    exact h.actions id (List.mem_filterMap.2 ⟨s, hs, hid⟩)
  show ((script j).map Step.run).filterMap Step.command? = _
  rw [filterMap_command?_run, script, hlines]
  split
  · rename_i hnone
    exact absurd hnone h.commands
  · rfl

end Gitlab

namespace Circleci

theorem commands_addStep (c : Contents) {s : Step} (h : s.command? = none) :
    (c.addStep s).steps.filterMap Step.command? = c.steps.filterMap Step.command? := by
  rw [Contents.addStep, List.filterMap_append, List.filterMap_cons_none h]
  exact List.append_nil _

/-- A step with a body adds no command unless it is called `run`. -/
theorem commands_readField {kind : String} (hkind : kind ≠ "run") (c : Contents) (body : Node) :
    (readField c kind body).steps.filterMap Step.command? = c.steps.filterMap Step.command? := by
  apply readField_cases (motive := fun d : Contents =>
    d.steps.filterMap Step.command? = c.steps.filterMap Step.command?)
  case run => exact fun heq => absurd heq hkind
  case checkout => exact fun _ => commands_addStep c rfl
  case cache => exact fun _ => rfl
  case artifact => exact fun _ _ _ => rfl
  case nothing => rfl
  case command => exact fun _ => commands_addStep c rfl

/-- What is said of a step adds its command. -/
theorem commands_addSaid (c : Contents) {s : Step} (haction : "run" ∉ s.actionId?) :
    (addSaid c s).steps.filterMap Step.command? =
      c.steps.filterMap Step.command? ++ s.fullCommand?.toList := by
  -- What is no run step has no command, and none may be added for it.
  have hno : ∀ {id : String} {inputs : Vars}, s.isVoid = false → s.action = .uses id inputs →
      c.steps.filterMap Step.command? ++ s.fullCommand?.toList =
        c.steps.filterMap Step.command? := by
    intro id inputs hfull heq
    have hnone : s.command? = none := by rw [Step.command?, heq]
    rw [Step.fullCommand?_of_full hfull, hnone]
    exact List.append_nil _
  apply addSaid_cases (motive := fun d : Contents => d.steps.filterMap Step.command? =
    c.steps.filterMap Step.command? ++ s.fullCommand?.toList)
  case void =>
    intro hvoid
    rw [Step.fullCommand?_of_void hvoid]
    exact (List.append_nil _).symm
  case run =>
    intro command hfull heq
    have hsome : s.command? = some command := by rw [Step.command?, heq]
    rw [Step.fullCommand?_of_full hfull, hsome]
    exact List.filterMap_append ..
  case checkout =>
    exact fun id inputs hfull _ heq => (commands_addStep c rfl).trans (hno hfull heq).symm
  case drop => exact fun id inputs hfull _ heq _ => (hno hfull heq).symm
  case plain => exact fun id hfull _ heq _ => (commands_addStep c rfl).trans (hno hfull heq).symm
  case body =>
    intro id inputs hfull _ heq _ _
    have hkind : id ≠ "run" := by
      rintro rfl
      exact haction (by simp [Step.actionId?, heq])
    exact (commands_readField hkind c _).trans (hno hfull heq).symm

theorem commands_foldl_addSaid {steps : List Step} (h : ∀ s ∈ steps, "run" ∉ s.actionId?)
    (c : Contents) : (steps.foldl addSaid c).steps.filterMap Step.command? =
      c.steps.filterMap Step.command? ++ steps.filterMap Step.fullCommand? := by
  induction steps generalizing c with
  | nil => exact (List.append_nil _).symm
  | cons s steps ih =>
    rw [List.foldl_cons, ih fun s hs => h s (List.mem_cons_of_mem _ hs),
      commands_addSaid c (h s (List.mem_cons_self ..)), List.append_assoc, List.filterMap_cons]
    cases s.fullCommand? <;> rfl

theorem commands_saidContents {j : Job} (h : "run" ∉ j.actionIds) :
    (saidContents j).steps.filterMap Step.command? = j.fullCommands := by
  have hactions : ∀ s ∈ j.steps, "run" ∉ s.actionId? := fun s hs haction =>
    h (List.mem_filterMap.2 ⟨s, hs, haction⟩)
  rw [steps_saidContents, commands_foldl_addSaid hactions]
  split
  · rfl
  · rfl

end Circleci

namespace Conversion

/-- What a platform asks of the jobs whose commands it carries. -/
def Carries (p : Pipeline) : Platform → Prop
  | .github => True
  | .gitlab => ∀ j ∈ p.jobs, Gitlab.Carried j
  | .circleci => Outline.keyFits (Circleci.workflowName p.name) = true ∧
      ∀ j ∈ p.jobs, "run" ∉ j.actionIds
  | .azure | .jenkins | .bitbucket => False

/-- Writing a pipeline of short names and reading it gives job by job the commands that are not
blank. -/
theorem commands_read_write {p : Pipeline} (h : ShortJobNames p) (settings : Settings)
    {platform : Platform} (hcarries : Carries p platform) :
    ∃ text q, write platform p = .ok text ∧ read settings platform text = .ok q ∧
      q.jobs.map Job.commands = p.jobs.map Job.fullCommands := by
  cases platform with
  | github =>
    refine ⟨Github.write p, Github.said p, rfl, ?_, ?_⟩
    · rw [read_github, h.reads_github]
      rfl
    · rw [Github.said, List.map_map]
      exact List.map_congr_left fun j _ => Github.commands_saidJob _ j
  | gitlab =>
    refine ⟨Gitlab.write p, Gitlab.said settings p, rfl, ?_, ?_⟩
    · rw [read_gitlab, h.reads_gitlab]
      rfl
    · rw [Gitlab.said, List.map_map]
      exact List.map_congr_left fun j hj => Gitlab.commands_saidJob settings _ (hcarries j hj)
  | circleci =>
    refine ⟨Circleci.write p, Circleci.said p, rfl, ?_, ?_⟩
    · rw [read_circleci, h.reads_circleci settings hcarries.1]
      rfl
    · rw [Circleci.said, List.map_map]
      exact List.map_congr_left fun j hj => Circleci.commands_saidContents (hcarries.2 j hj)
  | azure => exact hcarries.elim
  | jenkins => exact hcarries.elim
  | bitbucket => exact hcarries.elim

/-- The messy pipeline has one command that is not blank, on three lines. -/
theorem commands_read_write_messyJobs : ShortJobNames messyJobs ∧ Carries messyJobs .github ∧
    ∃ text q, write .github messyJobs = .ok text ∧ read {} .github text = .ok q ∧
      q.jobs.map Job.commands = [["npm ci\n\nnpm test"], []] :=
  ⟨shortJobNames_messyJobs, trivial, commands_read_write shortJobNames_messyJobs {} trivial⟩

/-- A pipeline whose first job ends with a command that ends in two line feeds. -/
def trailingFeeds : Pipeline where
  name := "CI"
  triggers := [.on .push]
  environment := .empty
  jobs := [{ Job.new "a" "ubuntu-latest" with steps := [.run "make\n\n"] },
    Job.new "b" "ubuntu-latest"]

/-- The blank line in front of the next job becomes part of the command. -/
theorem commands_trailingFeeds : trailingFeeds.jobs.map Job.fullCommands = [["make\n\n"], []] ∧
    ∃ q, read {} .github (Github.write trailingFeeds) = .ok q ∧
      q.jobs.map Job.commands = [["make\n\n\n"], []] :=
  ⟨by decide, exists_ok_of_toOption (by decide +kernel)⟩

end Conversion
end CiPipelines

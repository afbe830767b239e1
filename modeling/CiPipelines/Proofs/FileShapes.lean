import CiPipelines.Proofs.DependencyGraphs

/-!
# Shapes of written files

A file has the fields of its platform and one entry for each job, under the key of the job.  The
entry of a job has the fields that jobs have on the platform.  Texts of a pipeline stand only in the
places that the layout has for them: none of them, whatever its characters, adds a field to a file
or to a job.
-/

namespace CiPipelines

open Outline

namespace YamlTarget

/-! ## The places of a file -/

/-- The fields that a file can have besides its jobs. -/
def rootFields : YamlTarget → List String
  | .github => Github.rootFields
  | .gitlab => Gitlab.rootFields
  | .circleci => Circleci.rootFields
  | .azure => Azure.rootFields

/-- The fields that the entry of a job can have. -/
def jobFields : YamlTarget → List String
  | .github => Github.jobFields
  | .gitlab => Gitlab.jobFields
  | .circleci => Circleci.jobFields
  | .azure => Azure.stageFields

/-- The keys that can stand at the top of a file.  In a GitLab file the jobs stand there as well. -/
def topKeys (t : YamlTarget) (jobKeys : List String) : List String :=
  if t = .gitlab then t.rootFields ++ jobKeys else t.rootFields

/-- The entries of the jobs of a file, each with its key. -/
def jobEntries : YamlTarget → Node → List (String × Node)
  | .github, root | .circleci, root => root.entriesAt "jobs"
  | .gitlab, root => root.entries.filter fun (key, body) => Gitlab.namesJob key && body.isFields
  | .azure, root => (root.itemsAt "stages").flatMap fun stage =>
    (stage.textAt? "stage").toList.map fun key => (key, stage)

/-- The lines of the entry of a job. -/
def jobLines : YamlTarget → Pipeline → Job → List (Line Outline)
  | .github, p, j => Github.jobLines (Github.keys p) j
  | .gitlab, p, j => Gitlab.jobLines (Gitlab.keys p) j
  | .circleci, p, j => Circleci.jobLines p.environment j
  | .azure, p, j => Azure.stageLines (Azure.keys p) j

/-- The data of a file for jobs of the given keys: one entry for each of them in order, and no
field that is not one of the platform's. -/
structure Shaped (t : YamlTarget) (jobKeys : List String) (root : Node) : Prop where
  top : (root.entries.map (·.1)).Sublist (t.topKeys jobKeys)
  jobs : (t.jobEntries root).map (·.1) = jobKeys
  fields : ∀ entry ∈ t.jobEntries root, (entry.2.entries.map (·.1)).Sublist t.jobFields

/-! ## Files have their shapes -/

/-- The jobs of a file are those of its pipeline, each under its key. -/
theorem jobEntries_file (t : YamlTarget) (p : Pipeline) : t.jobEntries (t.file p) =
    p.jobs.map fun j => ((t.keys p).key j.name, node (.fields (t.jobLines p j))) := by
  cases t with
  | github => exact Github.entriesAt_jobs p
  | gitlab => exact Gitlab.filter_lineNodes_outline p
  | circleci =>
    refine Circleci.entriesAt_jobsOutline ?_
    simp [file, outline, Circleci.lineNodes_outline, List.lookup_cons]
  | azure =>
    have hitems : (azure.file p).itemsAt "stages" =
        p.jobs.map fun j => node (.fields (Azure.stageLines (Azure.keys p) j)) := by
      rw [file, outline, Node.itemsAt, get?_fields, Azure.lookup_stages]
      rfl
    have hkey : ∀ j : Job, (node (.fields (Azure.stageLines (Azure.keys p) j))).textAt? "stage" =
        some ((Azure.keys p).key j.name) := fun j => by
      simp [Azure.stageLines, Node.textAt?]
    rw [jobEntries, hitems, List.flatMap_map]
    simp only [hkey, Option.toList_some, List.map_singleton]
    exact List.map_eq_flatMap.symm

section

variable {t : YamlTarget} {p : Pipeline} (h : t.Writable p)

include h

/-- The keys at the top of a file. -/
theorem sublist_topKeys :
    (lineKeys (t.outline p)).Sublist (t.topKeys (p.jobs.map fun j => (t.keys p).key j.name)) := by
  cases t with
  | github => exact (Github.part_outline h).sublist
  | gitlab => exact (Gitlab.part_outline h).sublist
  | circleci => exact (Circleci.part_outline h).sublist
  | azure => exact (Azure.part_outline h).sublist

/-- The keys of the entry of a job. -/
theorem sublist_jobFields {j : Job} (hj : j ∈ p.jobs) :
    (lineKeys (t.jobLines p j)).Sublist t.jobFields := by
  cases t with
  | github => exact (@Github.part_jobLines 0 _ (h.job hj) _ Github.isKey_keys).sublist
  | gitlab => exact (@Gitlab.part_jobLines 0 _ _ (h.job hj) (Gitlab.isKey_keys p)).sublist
  | circleci =>
    exact (@Circleci.part_jobLines 0 _ _ (h.jobs j hj) (Circleci.keys p) h.environment).sublist
  | azure => exact (@Azure.part_stageLines 0 _ (h.job hj) _ (Azure.isKey_keys p)).sublist

/-- A file has the shape that its jobs give it. -/
theorem shaped_file :
    Shaped t (p.jobs.map fun j => (t.keys p).key j.name) (t.file p) where
  top := by
    rw [file, Node.entries, map_fst_lineNodes]
    exact sublist_topKeys h
  jobs := by
    rw [jobEntries_file, List.map_map]
    rfl
  fields entry hentry := by
    rw [jobEntries_file] at hentry
    obtain ⟨j, hj, rfl⟩ := List.mem_map.1 hentry
    rw [entries_node_fields, map_fst_lineNodes]
    exact sublist_jobFields h hj

/-- No text of a pipeline changes the shape of its file.  What is read of the file has one entry for
each job under its key and otherwise the fields of the platform alone.  A file with a key that is
too long to be read as one is not read at all. -/
theorem shaped_read_write : ∃ text, Conversion.write t.platform p = .ok text ∧
    if t.fits p then ∃ root, Node.ofPipelineFile text = .ok root ∧
      Shaped t (p.jobs.map fun j => (t.keys p).key j.name) root
    else Node.ofPipelineFile text = .error .notYaml := by
  refine ⟨print (t.outline p), t.write_eq p, ?_⟩
  split
  · rename_i hfits
    exact ⟨t.file p, t.ofPipelineFile_print h hfits, shaped_file h⟩
  · rename_i hlong
    rw [(t.written_outline h).ofPipelineFile_print, if_neg hlong]

end

/-- A pipeline of texts that look like parts of a file. -/
def unrulyTexts : Pipeline where
  name := "jobs: [] # none"
  triggers := [.atTimes "- '*'"]
  environment := ⟨[("on: \x7b", "\x7d\njobs:\n  a: b")], by decide⟩
  jobs := [{ Job.new "a:\n  b" "&linux" with
    condition := some "|\n    if: never()"
    steps := [.run "make\n- run: >-\n  ---\n..."] }]

theorem shortJobNames_unrulyTexts : ShortJobNames unrulyTexts := by decide

/-- They stay texts: the workflow has one job. -/
theorem shaped_read_write_unrulyTexts : github.Writable unrulyTexts ∧
    ∃ text root, Conversion.write .github unrulyTexts = .ok text ∧
      Node.ofPipelineFile text = .ok root ∧ Shaped github ["a----b"] root := by
  have hwritable := github.writable_of_shortNames shortJobNames_unrulyTexts.toShortServiceNames
  have hfits : github.fits unrulyTexts = true :=
    List.all_eq_true.2 shortJobNames_unrulyTexts.keyFits_standard
  have hkeys : (unrulyTexts.jobs.map fun j => (github.keys unrulyTexts).key j.name) = ["a----b"] := by
    decide +kernel
  have hread := shaped_read_write hwritable
  simp only [if_pos hfits, hkeys] at hread
  obtain ⟨text, hwrite, root, hroot, hshaped⟩ := hread
  exact ⟨hwritable, text, root, hwrite, hroot, hshaped⟩

/-- A job whose image goes on behind a line feed. -/
def imageOfTwoLines : Pipeline where
  name := "CI"
  triggers := [.on .push]
  environment := .empty
  jobs := [Job.new "build" "alpine:3\n    if: never()"]

/-- What stands behind the line feed is read as a field of the job. -/
theorem not_shaped_imageOfTwoLines :
    ∃ root, Node.ofPipelineFile (Github.write imageOfTwoLines) = .ok root ∧
      ¬Shaped github (imageOfTwoLines.jobs.map fun j =>
        (github.keys imageOfTwoLines).key j.name) root := by
  have hfields : (Node.ofPipelineFile (Github.write imageOfTwoLines)).toOption.map
      (fun root => (root.entriesAt "jobs").map fun entry => entry.2.entries.map (·.1)) =
        some [["if", "runs-on", "steps"]] := by decide +kernel
  obtain ⟨root, hroot, hfields⟩ := exists_ok_of_toOption hfields
  refine ⟨root, hroot, fun hshaped => ?_⟩
  obtain ⟨entry, hentries, hkeys⟩ := List.map_eq_singleton_iff.1 hfields
  have hentry : entry ∈ github.jobEntries root := by
    rw [jobEntries, hentries]
    exact List.mem_singleton_self entry
  have hsublist := hshaped.fields entry hentry
  rw [hkeys] at hsublist
  revert hsublist
  decide

end YamlTarget
end CiPipelines

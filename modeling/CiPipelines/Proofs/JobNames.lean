import CiPipelines.Conversion
import CiPipelines.Proofs.MappingKeys

/-!
# Names of jobs

The jobs of a pipeline that is read have different names where each key of the file that has a text
is a text.  A key that is a number or truth value has the text of another key, and so two jobs may
have the same name.
-/

namespace CiPipelines

/-- Where the fields have different names, so have the jobs that some of them are read as. -/
theorem nodup_names_filter {entries : List (String × Node)} (h : (entries.map (·.1)).Nodup)
    (isJob : String × Node → Bool) {readJob : String → Node → Job}
    (hname : ∀ name body, (readJob name body).name = name) :
    (((entries.filter isJob).map fun (name, body) => readJob name body).map (·.name)).Nodup := by
  have hnames : ((entries.filter isJob).map fun (name, body) => readJob name body).map (·.name) =
      (entries.filter isJob).map (·.1) := by
    rw [List.map_map]
    exact List.map_congr_left fun entry _ => hname entry.1 entry.2
  rw [hnames]
  exact h.sublist (List.filter_sublist.map _)

namespace Circleci

/-- Requirements change no names. -/
theorem map_name_require (name : String) (needed : List String) (jobs : List Job) :
    (require name needed jobs).map (·.name) = jobs.map (·.name) := by
  induction jobs with
  | nil => rfl
  | cons job jobs ih =>
    rw [require]
    split
    · rfl
    · rw [List.map_cons, ih, List.map_cons]

theorem map_name_ofNode (settings : Settings) (root : Node) :
    (ofNode settings root).jobs.map (·.name) = (readJobs settings root).map (·.name) := by
  unfold ofNode
  dsimp only
  generalize readJobs settings root = jobs
  induction requirements root generalizing jobs with
  | nil => rfl
  | cons requirement requirements ih =>
    rw [List.foldl_cons, ih, map_name_require]

end Circleci

/-- In a file no two fields have the same name, at the root and one level below it, if each key with
a text is a text. -/
theorem nodup_names_ofPipelineFile {text : String} {root : Node}
    (h : Node.ofPipelineFile text = .ok root)
    (hplain : ∀ v, Yaml.Value.ofText? text.toList = some v → v.Keyed Yaml.Value.PlainKeys) :
    (root.entries.map (·.1)).Nodup ∧ ∀ key, ((root.entriesAt key).map (·.1)).Nodup := by
  unfold Node.ofPipelineFile at h
  split at h
  · cases h
  · obtain rfl := Except.ok.inj h
    exact ⟨List.nodup_nil, fun _ => List.nodup_nil⟩
  · rename_i entries hyaml
    obtain rfl := Except.ok.inj h
    exact Node.nodup_names_ofYaml? hyaml hplain
  · cases h

namespace Conversion

theorem of_mapError_ok {text : String} {ofNode : Node → Pipeline} {p : Pipeline}
    {f : Malformed → ConversionError}
    (h : (ofNode <$> Node.ofPipelineFile text).mapError f = .ok p) :
    ∃ root, Node.ofPipelineFile text = .ok root ∧ ofNode root = p := by
  cases hroot : Node.ofPipelineFile text with
  | error reason =>
    rw [hroot] at h
    cases h
  | ok root =>
    rw [hroot] at h
    exact ⟨root, rfl, Except.ok.inj h⟩

/-- The jobs of a pipeline that is read have different names, if each key of the file that has a
text is a text. -/
theorem nodup_names_read {settings : Settings} {platform : Platform} {text : String} {p : Pipeline}
    (hread : read settings platform text = .ok p)
    (hplain : ∀ v, Yaml.Value.ofText? text.toList = some v → v.Keyed Yaml.Value.PlainKeys) :
    (p.jobs.map (·.name)).Nodup := by
  cases platform with
  | github =>
    obtain ⟨root, hroot, rfl⟩ := of_mapError_ok hread
    exact nodup_names_filter ((nodup_names_ofPipelineFile hroot hplain).2 "jobs") _ fun _ _ => rfl
  | gitlab =>
    obtain ⟨root, hroot, rfl⟩ := of_mapError_ok hread
    exact nodup_names_filter (nodup_names_ofPipelineFile hroot hplain).1 _ fun _ _ => rfl
  | circleci =>
    obtain ⟨root, hroot, rfl⟩ := of_mapError_ok hread
    rw [Circleci.map_name_ofNode]
    exact nodup_names_filter ((nodup_names_ofPipelineFile hroot hplain).2 "jobs") _ fun _ _ => rfl
  | jenkins =>
    -- A Jenkinsfile is read as a single job.
    obtain rfl := Except.ok.inj hread
    exact List.nodup_singleton _
  | azure => cases hread
  | bitbucket => cases hread

/-- A workflow with a digit as the name of a job, which is a text in quotes. -/
def quotedName : String := "jobs:\n  '1':\n    runs-on: linux\n  build:\n    runs-on: linux\n"

theorem nodup_names_read_quotedName : ∃ p, read {} .github quotedName = .ok p ∧
    (∀ v, Yaml.Value.ofText? quotedName.toList = some v → v.Keyed Yaml.Value.PlainKeys) ∧
    (p.jobs.map (·.name)).Nodup := by
  have hnames : ((read {} .github quotedName).toOption.map fun p => p.jobs.map (·.name)) =
      some ["1", "build"] := by decide +kernel
  obtain ⟨p, hread, -⟩ := exists_ok_of_toOption hnames
  have hkeyed : (Yaml.Value.ofText? quotedName.toList).all
      (Yaml.Value.isKeyed Yaml.Value.PlainKeys) = true := by decide +kernel
  have hplain : ∀ v, Yaml.Value.ofText? quotedName.toList = some v →
      v.Keyed Yaml.Value.PlainKeys := by
    intro v hv
    rw [hv] at hkeyed
    exact Yaml.Value.keyed_of_isKeyed _ v hkeyed
  exact ⟨p, hread, hplain, nodup_names_read hread hplain⟩

/-- A workflow with a number and a text of one digit as keys of its jobs. -/
def twinKeys : String := "jobs:\n  1:\n    runs-on: linux\n  '1':\n    runs-on: windows\n"

/-- Both jobs get the same name. -/
theorem not_nodup_names_twinKeys : ∃ p, read {} .github twinKeys = .ok p ∧
    ¬(p.jobs.map (·.name)).Nodup := by
  have hnames : ((read {} .github twinKeys).toOption.map fun p => p.jobs.map (·.name)) =
      some ["1", "1"] := by decide +kernel
  obtain ⟨p, hread, htwice⟩ := exists_ok_of_toOption hnames
  refine ⟨p, hread, ?_⟩
  rw [htwice]
  decide

end Conversion
end CiPipelines

import CiPipelines.Conversion
import CiPipelines.Proofs.AzureFiles
import CiPipelines.Proofs.CircleciFiles
import CiPipelines.Proofs.GithubWorkflows
import CiPipelines.Proofs.GitlabFiles
import CiPipelines.Proofs.JobKeys
import CiPipelines.Proofs.ShortNames

/-!
# Dependencies in written files

Each YAML platform has a place for the names on which a job depends.  A writer puts the key of
every name there: the table's for a name of a job, and the base for any other.  The two can meet.
So what is read of a file has an edge between two of its jobs if the pipeline has it, and besides
only if a job depends on a name that no job has and whose base is the key of the other job.
-/

namespace CiPipelines

open Outline

/-- The platforms whose files are YAML documents that can be written. -/
inductive YamlTarget where
  | github
  | gitlab
  | circleci
  | azure
  deriving DecidableEq, Repr

namespace YamlTarget

/-- The platform. -/
def platform : YamlTarget → Platform
  | .github => .github
  | .gitlab => .gitlab
  | .circleci => .circleci
  | .azure => .azure

/-- The lines of the file for a pipeline. -/
def outline : YamlTarget → Pipeline → List (Line Outline)
  | .github => Github.outline
  | .gitlab => Gitlab.outline
  | .circleci => Circleci.outline
  | .azure => Azure.outline

/-- The rules by which jobs get their keys. -/
def rules : YamlTarget → KeyRules
  | .github | .circleci => .standard
  | .gitlab => Gitlab.keyRules
  | .azure => Azure.keyRules

/-- The keys of the jobs of a pipeline. -/
def keys (t : YamlTarget) (p : Pipeline) : KeyTable := .ofJobs t.rules p.jobs

/-- The data of the file for a pipeline. -/
def file (t : YamlTarget) (p : Pipeline) : Node := .fields (lineNodes (t.outline p))

/-- The dependencies that a file states, each as the key of a job and a name that it needs. -/
def dependencies : YamlTarget → Node → List (String × String)
  | .github, root => (root.entriesAt "jobs").flatMap fun (key, body) =>
    (body.textsAt "needs").map fun need => (key, need)
  | .gitlab, root =>
    (root.entries.filter fun (key, body) => Gitlab.namesJob key && body.isFields).flatMap
      fun (key, body) => (body.textsAt "needs").map fun need => (key, need)
  | .circleci, root => (Circleci.requirements root).flatMap fun (key, needs) =>
    needs.map fun need => (key, need)
  | .azure, root => (root.itemsAt "stages").flatMap fun stage =>
    (stage.textAt? "stage").toList.flatMap fun key =>
      (stage.textsAt "dependsOn").map fun need => (key, need)

/-- A pipeline that can be written. -/
def Writable : YamlTarget → Pipeline → Prop
  | .github => Github.Writable
  | .gitlab => Gitlab.Writable
  | .circleci => Circleci.Writable
  | .azure => Azure.Writable

/-- Whether all keys of the file for a pipeline are short enough to be read. -/
def fits : YamlTarget → Pipeline → Bool
  | .github, p => p.jobs.all fun j => keyFits ((Github.keys p).key j.name)
  | .gitlab, p => p.jobs.all fun j => keyFits ((Gitlab.keys p).key j.name)
  | .circleci, p => Circleci.fits p
  | .azure, _ => true

theorem rules_mem_inUse (t : YamlTarget) : t.rules ∈ KeyRules.inUse := by
  cases t <;> simp [rules, KeyRules.inUse]

/-- The text of the file for a pipeline. -/
theorem write_eq (t : YamlTarget) (p : Pipeline) :
    Conversion.write t.platform p = .ok (print (t.outline p)) := by
  cases t <;> rfl

/-- The file for a pipeline that can be written, which fits as the pipeline does. -/
theorem written_outline (t : YamlTarget) {p : Pipeline} (h : t.Writable p) :
    Written 128 (t.fits p) (.fields (t.outline p)) := by
  cases t with
  | github => exact (Github.part_outline h).fields (by decide)
  | gitlab => exact (Gitlab.part_outline h).fields (Gitlab.nodup_rootFields h)
  | circleci => exact (Circleci.part_outline h).fields (by decide)
  | azure => exact Azure.written_outline h

/-- The text of a file is read as its data. -/
theorem ofPipelineFile_print (t : YamlTarget) {p : Pipeline} (h : t.Writable p)
    (hfits : t.fits p = true) : Node.ofPipelineFile (print (t.outline p)) = .ok (t.file p) := by
  rw [(t.written_outline h).ofPipelineFile_print, if_pos hfits]
  rfl

/-- Short names can be written on all platforms. -/
theorem writable_of_shortNames (t : YamlTarget) {p : Pipeline} (h : ShortServiceNames p) :
    t.Writable p := by
  cases t with
  | github => exact h.github
  | gitlab => exact h.gitlab
  | circleci => exact h.circleci
  | azure => exact ⟨h.texts, fun _ => h.variableNames⟩

theorem fits_of_shortNames (t : YamlTarget) {p : Pipeline} (h : ShortJobNames p)
    (hname : keyFits (Circleci.workflowName p.name) = true) : t.fits p = true := by
  cases t with
  | github => exact List.all_eq_true.2 h.keyFits_standard
  | gitlab => exact List.all_eq_true.2 h.keyFits_gitlab
  | circleci => exact h.circleciFits hname
  | azure => rfl

/-! ## The dependencies of a file -/

/-- The dependencies of a pipeline, under keys. -/
def keyedDependencies (keys : KeyTable) (jobs : List Job) : List (String × String) :=
  jobs.flatMap fun j => (keys.keys j.dependsOn).map fun need => (keys.key j.name, need)

/-- A file states the dependencies of its pipeline, under keys, and no others. -/
theorem dependencies_file (t : YamlTarget) (p : Pipeline) :
    t.dependencies (t.file p) = keyedDependencies (t.keys p) p.jobs := by
  -- Each platform keeps the dependencies at a place of its own.
  cases t with
  | github =>
    have hneeds : ∀ j : Job, (node (.fields (Github.jobLines (Github.keys p) j))).textsAt "needs" =
        (Github.keys p).keys j.dependsOn := fun j => by
      simp [Github.jobLines, Node.textsAt, List.lookup_append, List.lookup_cons]
    simp only [dependencies, file, outline, Github.entriesAt_jobs, List.flatMap_map, hneeds]
    rfl
  | gitlab =>
    have hneeds : ∀ j : Job, (node (.fields (Gitlab.jobLines (Gitlab.keys p) j))).textsAt "needs" =
        (Gitlab.keys p).keys j.dependsOn := fun j => by
      simp [Gitlab.jobLines, Node.textsAt, List.lookup_append, List.lookup_cons]
    simp only [dependencies, file, outline, Node.entries, Gitlab.filter_lineNodes_outline,
      List.flatMap_map, hneeds]
    rfl
  | circleci =>
    have hneeds : ∀ j : Job, ((Circleci.requirementsOf (Circleci.keys p) j).flatMap
        fun (key, needs) => needs.map fun need => (key, need)) =
          ((Circleci.keys p).keys j.dependsOn).map fun need => ((Circleci.keys p).key j.name, need) := by
      intro j
      unfold Circleci.requirementsOf
      cases j.dependsOn <;> simp [KeyTable.keys]
    simp only [dependencies, file, outline, Circleci.requirements_outline, List.flatMap_assoc,
      hneeds]
    rfl
  | azure =>
    have hstage : ∀ j : Job, (node (Azure.stageOutline (Azure.keys p) j)).textAt? "stage" =
        some ((Azure.keys p).key j.name) := fun j => by
      simp [Azure.stageOutline_eq, Azure.stageLines, Node.textAt?]
    have hneeds : ∀ j : Job, (node (Azure.stageOutline (Azure.keys p) j)).textsAt "dependsOn" =
        (Azure.keys p).keys j.dependsOn := fun j => by
      simp [Azure.stageOutline_eq, Azure.stageLines, Node.textsAt, List.lookup_append,
        List.lookup_cons, Node.texts, List.filterMap_map, Function.comp_def, Node.text?]
    have hitems : (Node.fields (lineNodes (Azure.outline p))).itemsAt "stages" =
        p.jobs.map fun j => node (Azure.stageOutline (Azure.keys p) j) := by
      rw [Node.itemsAt, get?_fields, Azure.lookup_stages]
      rfl
    simp only [dependencies, file, outline, hitems, List.flatMap_map, hstage, hneeds,
      Option.toList_some, List.flatMap_singleton]
    rfl

section

variable (t : YamlTarget) {p : Pipeline} (hnames : (p.jobs.map (·.name)).Nodup)

include hnames

/-- The entry of a job states the keys of the names on which the job depends. -/
theorem mem_dependencies_file {a : Job} (ha : a ∈ p.jobs) {need : String} :
    ((t.keys p).key a.name, need) ∈ t.dependencies (t.file p) ↔
      ∃ name ∈ a.dependsOn, (t.keys p).key name = need := by
  have hsound := KeyRules.sound_of_mem_inUse t.rules_mem_inUse
  rw [dependencies_file, keyedDependencies, List.mem_flatMap]
  constructor
  · rintro ⟨j, hj, hmem⟩
    obtain ⟨key, hkey, heq⟩ := List.mem_map.1 hmem
    obtain ⟨hsame, rfl⟩ := Prod.mk.inj heq
    have hname : j.name = a.name :=
      KeyTable.key_ofNames_inj hsound (List.mem_map_of_mem hj) (List.mem_map_of_mem ha) hsame
    obtain rfl := List.inj_on_of_nodup_map hnames hj ha hname
    exact List.mem_map.1 hkey
  · intro hneed
    exact ⟨a, ha, List.mem_map.2 ⟨need, List.mem_map.2 hneed, rfl⟩⟩

/-- The entry of a job states the keys of the jobs that it needs, and the bases of the other names. -/
theorem mem_dependencies_file_iff {a : Job} (ha : a ∈ p.jobs) {need : String} :
    ((t.keys p).key a.name, need) ∈ t.dependencies (t.file p) ↔
      (∃ b ∈ p.jobs, b.name ∈ a.dependsOn ∧ (t.keys p).key b.name = need) ∨
        ∃ name ∈ a.dependsOn, name ∉ p.jobs.map (·.name) ∧ t.rules.base name = need := by
  have hbase : ∀ {name}, name ∉ p.jobs.map (·.name) →
      (t.keys p).key name = t.rules.base name := fun hname =>
    KeyTable.key_ofNames_of_not_mem (KeyRules.sound_of_mem_inUse t.rules_mem_inUse) hname
  rw [mem_dependencies_file t hnames ha]
  constructor
  · rintro ⟨name, hname, rfl⟩
    by_cases hjob : name ∈ p.jobs.map (·.name)
    · obtain ⟨b, hb, rfl⟩ := List.mem_map.1 hjob
      exact .inl ⟨b, hb, hname, rfl⟩
    · exact .inr ⟨name, hname, hjob, (hbase hjob).symm⟩
  · rintro (⟨b, -, hname, hkey⟩ | ⟨name, hname, hjob, hkey⟩)
    · exact ⟨b.name, hname, hkey⟩
    · exact ⟨name, hname, (hbase hjob).trans hkey⟩

/-- Of two jobs, one states the key of the other if it needs that job, or a name that no job has and
whose base is that key. -/
theorem edge_file_iff {a b : Job} (ha : a ∈ p.jobs) (hb : b ∈ p.jobs) :
    ((t.keys p).key a.name, (t.keys p).key b.name) ∈ t.dependencies (t.file p) ↔
      b.name ∈ a.dependsOn ∨ ∃ name ∈ a.dependsOn, name ∉ p.jobs.map (·.name) ∧
        t.rules.base name = (t.keys p).key b.name := by
  have hsound := KeyRules.sound_of_mem_inUse t.rules_mem_inUse
  rw [mem_dependencies_file_iff t hnames ha]
  -- Different jobs have different keys.
  refine or_congr_left ⟨?_, fun hname => ⟨b, hb, hname, rfl⟩⟩
  rintro ⟨c, hc, hname, hkey⟩
  rwa [← KeyTable.key_ofNames_inj hsound (List.mem_map_of_mem hc) (List.mem_map_of_mem hb) hkey]

end

/-- A name whose base is the key of a job has the base of the name of that job, or that base with a
number. -/
theorem base_of_eq_key (t : YamlTarget) (p : Pipeline) {b : Job} {name : String}
    (heq : t.rules.base name = (t.keys p).key b.name) :
    t.rules.base name = t.rules.base b.name ∨
      ∃ n, t.rules.base name = t.rules.numbered (t.rules.base b.name) n := by
  rcases KeyTable.madeFrom_key p.jobs b.name with hkey | ⟨n, -, hkey⟩
  · exact .inl (heq.trans hkey)
  · exact .inr ⟨n, heq.trans hkey⟩

/-- How the data of a file states the dependencies of a pipeline.  The entry of a job states the key
of each job that it needs, and for a name that no job has its base.  So it states the key of another
job if the first needs that job, and besides only if it needs a name that no job has and whose base
is that key.  Such a name has the base of the name of that job, or that base with a number. -/
structure StatesDependencies (t : YamlTarget) (p : Pipeline) (root : Node) : Prop where
  entry : ∀ a ∈ p.jobs, ∀ need, ((t.keys p).key a.name, need) ∈ t.dependencies root ↔
    (∃ b ∈ p.jobs, b.name ∈ a.dependsOn ∧ (t.keys p).key b.name = need) ∨
      ∃ name ∈ a.dependsOn, name ∉ p.jobs.map (·.name) ∧ t.rules.base name = need
  edge : ∀ a ∈ p.jobs, ∀ b ∈ p.jobs,
    ((t.keys p).key a.name, (t.keys p).key b.name) ∈ t.dependencies root ↔
      b.name ∈ a.dependsOn ∨ ∃ name ∈ a.dependsOn, name ∉ p.jobs.map (·.name) ∧
        t.rules.base name = (t.keys p).key b.name
  base : ∀ b ∈ p.jobs, ∀ name, t.rules.base name = (t.keys p).key b.name →
    t.rules.base name = t.rules.base b.name ∨
      ∃ n, t.rules.base name = t.rules.numbered (t.rules.base b.name) n

/-- What is read of the text that is written for a pipeline states its dependencies.  A text with a
key that is too long to be read as one is not read at all. -/
theorem dependencies_laws (t : YamlTarget) {p : Pipeline}
    (hnames : (p.jobs.map (·.name)).Nodup) (h : t.Writable p) :
    ∃ text, Conversion.write t.platform p = .ok text ∧
      if t.fits p then ∃ root, Node.ofPipelineFile text = .ok root ∧ StatesDependencies t p root
      else Node.ofPipelineFile text = .error .notYaml := by
  refine ⟨print (t.outline p), t.write_eq p, ?_⟩
  split
  · rename_i hfits
    refine ⟨t.file p, t.ofPipelineFile_print h hfits, ?_⟩
    exact
      { entry := fun a ha need => mem_dependencies_file_iff t hnames ha
        edge := fun a ha b hb => edge_file_iff t hnames ha hb
        base := fun b _ name => t.base_of_eq_key p }
  · rename_i hlong
    rw [(t.written_outline h).ofPipelineFile_print, if_neg hlong]

/-- A pipeline with a dependency on a name that differs from that of a job in its first letter. -/
def capitalDependency : Pipeline where
  name := "CI"
  triggers := [.on .push]
  environment := .empty
  jobs := [{ Job.new "build" "linux" with steps := [.run "make"] },
    { Job.new "deploy" "linux" with dependsOn := ["Build"], steps := [.run "make deploy"] }]

theorem shortJobNames_capitalDependency : ShortJobNames capitalDependency := by decide

theorem fits_capitalDependency (t : YamlTarget) : t.fits capitalDependency = true := by
  refine t.fits_of_shortNames shortJobNames_capitalDependency ?_
  exact keyFits_of_length (by decide : Text.Ordinary (Circleci.workflowName "CI")).chars (by decide)

/-- On each platform, what is read has an edge between the two jobs. -/
theorem dependencies_laws_capitalDependency :
    (capitalDependency.jobs.map (·.name)).Nodup ∧
    ∀ t : YamlTarget, t.Writable capitalDependency ∧
      ∃ text root, Conversion.write t.platform capitalDependency = .ok text ∧
        Node.ofPipelineFile text = .ok root ∧ ("deploy", "build") ∈ t.dependencies root := by
  have hnames : (capitalDependency.jobs.map (·.name)).Nodup := by decide
  refine ⟨hnames, fun t => ?_⟩
  have hwritable := t.writable_of_shortNames
    shortJobNames_capitalDependency.toShortServiceNames
  obtain ⟨text, hwrite, hread⟩ := dependencies_laws t hnames hwritable
  rw [if_pos (fits_capitalDependency t)] at hread
  obtain ⟨root, hroot, hstates⟩ := hread
  have hkey : (t.keys capitalDependency).key "deploy" = "deploy" := by cases t <;> decide +kernel
  have hbase : t.rules.base "Build" = "build" := by cases t <;> decide +kernel
  refine ⟨hwritable, text, root, hwrite, hroot, ?_⟩
  rw [← hkey]
  exact (hstates.entry _ (List.mem_cons_of_mem _ (List.mem_cons_self ..)) "build").2
    (.inr ⟨"Build", by decide, by decide, hbase⟩)

/-- A name that no job has can be written as the key of a job. -/
theorem not_dangling_capitalDependency :
    (capitalDependency.jobs.map (·.name)).Nodup ∧
    (∀ j ∈ capitalDependency.jobs, ∀ name ∈ j.dependsOn,
      name ∉ capitalDependency.jobs.map (·.name)) ∧
    ∃ text root, Conversion.write .github capitalDependency = .ok text ∧
      Node.ofPipelineFile text = .ok root ∧
      (github.keys capitalDependency).key "build" = "build" ∧
      ("deploy", "build") ∈ github.dependencies root := by
  have hwritable := github.writable_of_shortNames
    shortJobNames_capitalDependency.toShortServiceNames
  refine ⟨by decide, by decide, print (github.outline capitalDependency),
    github.file capitalDependency, github.write_eq _,
    github.ofPipelineFile_print hwritable (fits_capitalDependency github), by decide +kernel, ?_⟩
  rw [dependencies_file]
  decide +kernel

end YamlTarget
end CiPipelines

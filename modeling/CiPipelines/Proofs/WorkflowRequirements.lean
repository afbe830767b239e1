import CiPipelines.Circleci.Reader
import CiPipelines.Proofs.PipelineTexts

/-!
# Requirements in the workflows of a CircleCI file

The workflows of a file say what a job requires, in any number of entries and for any number of
jobs.  The reader takes the entries one by one and changes the list of jobs for each of them.  In
the end each job requires what the entries of its own name say, each name once and in the order in
which the names came first; nothing else of a job depends on the workflows.
-/

namespace CiPipelines
namespace Circleci

/-! ## What a file requires -/

/-- The fields of a file that are jobs. -/
def jobEntries (root : Node) : List (String × Node) :=
  (root.entriesAt "jobs").filter fun (_, body) => body.isFields

/-- The names that the entries of a workflow require for a job. -/
def requiredIn (workflow : Node) (name : String) : List String :=
  (workflow.itemsAt "jobs").flatMap fun entry =>
    (entry.entries.filter fun (key, _) => key == name).flatMap fun (_, body) =>
      body.textsAt "requires"

/-- The names that all workflows require for a job, in the order of the file. -/
def required (root : Node) (name : String) : List String :=
  ((root.entriesAt "workflows").filter fun (key, _) => key != "version").flatMap
    fun (_, workflow) => requiredIn workflow name

/-- The names that some requirements have for a job. -/
def requiredBy (requirements : List (String × List String)) (name : String) : List String :=
  (requirements.filter fun (key, _) => key == name).flatMap fun (_, needed) => needed

theorem requiredBy_cons (requirement : String × List String)
    (requirements : List (String × List String)) (name : String) :
    requiredBy (requirement :: requirements) name =
      (if requirement.1 = name then requirement.2 else []) ++ requiredBy requirements name := by
  by_cases h : requirement.1 = name
  · simp [requiredBy, h]
  · simp [requiredBy, h]

/-- The requirements of a file are what its workflows require. -/
theorem requiredBy_requirements (root : Node) (name : String) :
    requiredBy (requirements root) name = required root name := by
  have hentry : ∀ entry : Node,
      ((entry.entries.map fun (key, body) => (key, body.textsAt "requires")).filter
        fun (key, _) => key == name).flatMap (fun (_, needed) => needed) =
      (entry.entries.filter fun (key, _) => key == name).flatMap fun (_, body) =>
        body.textsAt "requires" := by
    intro entry
    rw [List.filter_map, List.flatMap_map]
    rfl
  simp only [requiredBy, requirements, required, requiredIn, List.filter_flatMap,
    List.flatMap_assoc, hentry]

/-! ## Jobs and requirements -/

/-- A job that requires the given names as well. -/
def requiring (j : Job) (names : List String) : Job :=
  { j with dependsOn := addMissing j.dependsOn names }

theorem requiring_append (j : Job) (first last : List String) :
    requiring j (first ++ last) = requiring (requiring j first) last := by
  rw [requiring, addMissing, List.foldl_append]
  rfl

/-- One entry of a workflow changes the job of its name and no other. -/
theorem require_eq_map (name : String) (needed : List String) {jobs : List Job}
    (h : (jobs.map (·.name)).Nodup) : require name needed jobs =
      jobs.map fun j => requiring j (if name = j.name then needed else []) := by
  induction jobs with
  | nil => rfl
  | cons job rest ih =>
    rw [List.map_cons, List.nodup_cons] at h
    by_cases hname : job.name = name
    · -- No other job has the name, so the rest stays as it is.
      have hrest : rest.map (fun j => requiring j (if name = j.name then needed else [])) =
          rest := by
        refine map_eq_self_of_not_mem (hname ▸ h.1) fun j hne => ?_
        rw [if_neg (Ne.symm hne)]
        rfl
      rw [require, if_pos hname, List.map_cons, hrest, if_pos hname.symm]
      rfl
    · rw [require, if_neg hname, List.map_cons, ih h.2, if_neg (Ne.symm hname)]
      rfl

/-- All entries together change each job by what those of its name require. -/
theorem foldl_require (requirements : List (String × List String)) {jobs : List Job}
    (h : (jobs.map (·.name)).Nodup) :
    requirements.foldl (fun jobs (name, needed) => require name needed jobs) jobs =
      jobs.map fun j => requiring j (requiredBy requirements j.name) := by
  induction requirements generalizing jobs with
  | nil => exact (List.map_id jobs).symm
  | cons requirement requirements ih =>
    obtain ⟨name, needed⟩ := requirement
    have hstep := require_eq_map name needed h
    -- An entry changes no name, so the rest of the entries meets jobs with names of their own.
    have hnames : ((require name needed jobs).map (·.name)).Nodup := by
      rw [hstep, List.map_map]
      exact h
    rw [List.foldl_cons, ih hnames, hstep, List.map_map]
    refine List.map_congr_left fun j _ => ?_
    rw [requiredBy_cons, requiring_append]
    rfl

/-! ## Files -/

theorem readJobs_eq (settings : Settings) (root : Node) :
    readJobs settings root =
      (jobEntries root).map fun (name, body) => readJob settings name body := rfl

/-- Jobs with names of their own are read in order, each of them as its own field says it, and
with the names that the workflows require for it. -/
theorem jobs_ofNode (settings : Settings) {root : Node}
    (h : ((jobEntries root).map (·.1)).Nodup) :
    (ofNode settings root).jobs = (jobEntries root).map fun (name, body) =>
      { readJob settings name body with dependsOn := (required root name).eraseDups } := by
  have hnames : ((readJobs settings root).map (·.name)).Nodup := by
    rw [readJobs_eq, List.map_map]
    exact h
  show (requirements root).foldl (fun jobs (name, needed) => require name needed jobs)
    (readJobs settings root) = _
  rw [foldl_require _ hnames, readJobs_eq, List.map_map]
  refine List.map_congr_left fun entry _ => ?_
  obtain ⟨name, body⟩ := entry
  show requiring (readJob settings name body) (requiredBy (requirements root) name) =
    { readJob settings name body with dependsOn := (required root name).eraseDups }
  rw [requiredBy_requirements, ← foldl_addNew_nil]
  rfl

/-- A file whose jobs have names of their own is read as its jobs in order, each of them as its own
field says it, and with the names that the workflows require for it.  Each name stands once, where
it came first. -/
theorem ofNode_eq_of_nodup (settings : Settings) {root : Node}
    (h : ((jobEntries root).map (·.1)).Nodup) :
    ofNode settings root =
      { name := "Pipeline"
        triggers := [.on .push]
        environment := .empty
        jobs := (jobEntries root).map fun (name, body) =>
          { readJob settings name body with dependsOn := (required root name).eraseDups } } ∧
    ∀ text, Node.ofPipelineFile text = .ok root →
      read settings text = .ok (ofNode settings root) := by
  constructor
  · exact congrArg (Pipeline.mk "Pipeline" [.on .push] .empty) (jobs_ofNode settings h)
  · intro text htext
    rw [read, htext]
    rfl

/-- A file with several workflows, in which a job has several entries, is required before it has
one, or does not exist. -/
def nightlyWorkflows : Node :=
  let requires (name : String) (body : Node) : Node := .fields [(name, .fields [("requires", body)])]
  .fields [
    ("jobs", .fields [("lint", .fields []), ("build", .fields []), ("note", .scalar "no job"),
      ("test", .fields [("steps", .list [.scalar "checkout"])])]),
    ("workflows", .fields [
      ("version", .fields [("jobs", .list [requires "lint" (.scalar "test")])]),
      ("commit", .fields [("jobs", .list [.scalar "lint",
        requires "test" (.list [.scalar "build", .null, .scalar "lint"]),
        requires "deploy" (.list [.scalar "test"])])]),
      ("nightly", .fields [("jobs", .list [requires "build" (.scalar "lint"),
        requires "test" (.list [.scalar "lint", .scalar "deploy", .scalar "build"])])])])]

theorem ofNode_nightlyWorkflows : ((jobEntries nightlyWorkflows).map (·.1)).Nodup ∧
    (ofNode {} nightlyWorkflows).jobs.map (fun j => (j.name, j.dependsOn)) =
      [("lint", []), ("build", ["lint"]), ("test", ["build", "lint", "deploy"])] := by
  have hnames : ((jobEntries nightlyWorkflows).map (·.1)).Nodup := by decide
  refine ⟨hnames, ?_⟩
  rw [(ofNode_eq_of_nodup {} hnames).1]
  decide

end Circleci
end CiPipelines

import CiPipelines.Proofs.Regeneration
import Mathlib.Data.List.Forall2
import Mathlib.Data.List.Induction

/-!
# What a CircleCI file carries besides steps

A CircleCI file has no environment of its own, so each job gets the variables of the pipeline before
its own.  Artifacts become one item for each of their paths, among the steps and behind the caches.
Read again, a job has all variables once, its caches, the images and variables of its services, and
for each name that has paths one artifact with all of them.
-/

namespace CiPipelines

/-! ## Variables over variables -/

namespace Vars

/-- Setting a name that is there changes its value in place. -/
theorem setEntry_of_mem {name value : String} {entries : List (String × String)}
    (hnodup : (entries.map (·.1)).Nodup) (h : name ∈ entries.map (·.1)) :
    setEntry name value entries =
      entries.map fun e => (e.1, if e.1 = name then value else e.2) := by
  induction entries with
  | nil => exact absurd h List.not_mem_nil
  | cons e rest ih =>
    rw [List.map_cons, List.nodup_cons] at hnodup
    by_cases hname : e.1 = name
    · -- The name occurs once, so the other entries stay.
      have hrest : rest.map (fun e => (e.1, if e.1 = name then value else e.2)) = rest := by
        refine map_eq_self_of_not_mem (hname ▸ hnodup.1) fun e hne => ?_
        rw [if_neg hne]
      rw [setEntry, if_pos hname, List.map_cons, hrest, if_pos hname, hname]
    · have hmem : name ∈ rest.map (·.1) :=
        (List.mem_cons.1 h).resolve_left fun heq => hname heq.symm
      rw [setEntry, if_neg hname, List.map_cons, if_neg hname, ih hnodup.2 hmem]

/-- The entries of some variables with others over them: values are replaced in place, and what has
no place yet follows. -/
def overlaid (vars own : Vars) : List (String × String) :=
  vars.entries.map (fun e => (e.1, (own.get? e.1).getD e.2)) ++
    own.entries.filter fun e => !vars.names.contains e.1

section

variable {vars : Vars} {name value : String} {own : List (String × String)}
  (h : (((name, value) :: own).map Prod.fst).Nodup)

include h

theorem lookup_first_eq_none : own.lookup name = none :=
  KeyTable.lookup_eq_none.2 (List.nodup_cons.1 h).1

omit h in
theorem lookup_cons_of_ne {key : String} (hkey : key ≠ name) :
    ((name, value) :: own).lookup key = own.lookup key := by
  rw [List.lookup_cons, beq_eq_false_iff_ne.2 hkey]

/-- A value goes into its place, and none of the others goes there. -/
theorem overlaid_insert_of_mem (hname : name ∈ vars.names) :
    (vars.insert name value).overlaid ⟨own, (List.nodup_cons.1 h).2⟩ =
      vars.overlaid ⟨(name, value) :: own, h⟩ := by
  have hvalues : (setEntry name value vars.entries).map
      (fun e => (e.1, (own.lookup e.1).getD e.2)) =
        vars.entries.map fun e => (e.1, (((name, value) :: own).lookup e.1).getD e.2) := by
    rw [setEntry_of_mem vars.nodup hname, List.map_map]
    refine List.map_congr_left fun e _ => ?_
    by_cases he : e.1 = name
    · simp [he, lookup_first_eq_none h]
    · simp [he, lookup_cons_of_ne he]
  have hfilter : ((name, value) :: own).filter (fun e => !vars.names.contains e.1) =
      own.filter fun e => !vars.names.contains e.1 := by
    apply List.filter_cons_of_neg
    simpa using hname
  rw [overlaid, overlaid, names_insert, entries_insert, if_pos hname, hfilter]
  exact congrArg (· ++ _) hvalues

/-- A new variable goes to the end, and none of the others has its name. -/
theorem overlaid_insert_of_not_mem (hname : name ∉ vars.names) :
    (vars.insert name value).overlaid ⟨own, (List.nodup_cons.1 h).2⟩ =
      vars.overlaid ⟨(name, value) :: own, h⟩ := by
  have hvalues : (setEntry name value vars.entries).map
      (fun e => (e.1, (own.lookup e.1).getD e.2)) =
        (vars.entries.map fun e => (e.1, (((name, value) :: own).lookup e.1).getD e.2)) ++
          [(name, value)] := by
    rw [setEntry_of_not_mem name value vars.entries hname, List.map_append, List.map_singleton,
      lookup_first_eq_none h]
    refine congrArg (· ++ _) (List.map_congr_left fun e he => ?_)
    have hne : e.1 ≠ name := fun heq => hname (heq ▸ List.mem_map_of_mem he)
    rw [lookup_cons_of_ne hne]
  have hfilter : own.filter (fun e => !(vars.names ++ [name]).contains e.1) =
      own.filter fun e => !vars.names.contains e.1 := by
    have hnew : name ∉ own.map Prod.fst := (List.nodup_cons.1 h).1
    refine List.filter_congr fun e he => ?_
    have hne : e.1 ≠ name := fun heq => hnew (heq ▸ List.mem_map_of_mem he)
    simp [hne]
  have hfirst : ((name, value) :: own).filter (fun e => !vars.names.contains e.1) =
      (name, value) :: own.filter fun e => !vars.names.contains e.1 := by
    apply List.filter_cons_of_pos
    simpa using hname
  rw [overlaid, overlaid, names_insert, entries_insert, if_neg hname, hfilter, hfirst,
    List.append_cons]
  exact congrArg (· ++ _) hvalues

/-- Setting a variable first is laying it over with the others. -/
theorem overlaid_insert (vars : Vars) :
    (vars.insert name value).overlaid ⟨own, (List.nodup_cons.1 h).2⟩ =
      vars.overlaid ⟨(name, value) :: own, h⟩ := by
  by_cases hname : name ∈ vars.names
  · exact overlaid_insert_of_mem h hname
  · exact overlaid_insert_of_not_mem h hname

end

/-- Setting variables of different names one after the other lays them over those that are there. -/
theorem entries_insertAll_of_nodup (vars : Vars) {own : List (String × String)}
    (h : (own.map Prod.fst).Nodup) : (vars.insertAll own).entries = vars.overlaid ⟨own, h⟩ := by
  induction own generalizing vars with
  | nil => simp [insertAll, overlaid, get?]
  | cons first own ih =>
    show ((vars.insert first.1 first.2).insertAll own).entries = _
    rw [ih _ (List.nodup_cons.1 h).2]
    exact overlaid_insert h vars

end Vars

namespace Circleci

open Outline

/-! ## Artifacts of equal names -/

/-- The paths of all artifacts of a name. -/
def pathsOf (artifacts : List Artifact) (name : String) : List String :=
  (artifacts.filter fun a => a.name == name).flatMap (·.paths)

/-- The names of the artifacts that have paths, each where it comes first. -/
def namesWithPaths (artifacts : List Artifact) : List String :=
  ((artifacts.filter fun a => !a.paths.isEmpty).map (·.name)).eraseDups

/-- The artifacts that have paths, those of one name as one: in the place of the first of them and
with the paths of all. -/
def mergedArtifacts (artifacts : List Artifact) : List Artifact :=
  (namesWithPaths artifacts).map fun name => ⟨name, pathsOf artifacts name⟩

/-- The first artifact of a name with the paths of another behind its own. -/
def withPaths (a b : Artifact) : Artifact :=
  if b.name = a.name then { b with paths := b.paths ++ a.paths } else b

theorem name_withPaths (a b : Artifact) : (withPaths a b).name = b.name := by
  unfold withPaths
  split <;> rfl

theorem map_name_withPaths (a : Artifact) (artifacts : List Artifact) :
    (artifacts.map (withPaths a)).map (·.name) = artifacts.map (·.name) := by
  rw [List.map_map]
  exact List.map_congr_left fun b _ => name_withPaths a b

/-- A path under a name that is there is added to the artifact of the name. -/
theorem addPath_of_mem {name path : String} {artifacts : List Artifact}
    (hnodup : (artifacts.map (·.name)).Nodup) (h : name ∈ artifacts.map (·.name)) :
    Contents.addPath name path artifacts = artifacts.map (withPaths ⟨name, [path]⟩) := by
  induction artifacts with
  | nil => exact absurd h List.not_mem_nil
  | cons b rest ih =>
    rw [List.map_cons, List.nodup_cons] at hnodup
    by_cases hname : b.name = name
    · -- The name occurs once, so the other artifacts stay.
      have hrest : rest.map (withPaths ⟨name, [path]⟩) = rest :=
        map_eq_self_of_not_mem (hname ▸ hnodup.1) fun b hne => if_neg hne
      rw [Contents.addPath, if_pos hname, List.map_cons, hrest, withPaths, if_pos hname]
    · have hmem : name ∈ rest.map (·.name) :=
        (List.mem_cons.1 h).resolve_left fun heq => hname heq.symm
      rw [Contents.addPath, if_neg hname, ih hnodup.2 hmem, List.map_cons, withPaths,
        if_neg hname]

/-- The paths of an artifact of a name that is there are added to the artifact of the name. -/
theorem artifacts_addPaths_of_mem (c : Contents) {a : Artifact}
    (hnodup : (c.artifacts.map (·.name)).Nodup) (h : a.name ∈ c.artifacts.map (·.name)) :
    (addPaths c a).artifacts = c.artifacts.map (withPaths a) := by
  obtain ⟨name, paths⟩ := a
  show (paths.foldl (fun c path => c.addArtifact name path) c).artifacts = _
  induction paths generalizing c with
  | nil =>
    refine ((List.map_congr_left fun b _ => ?_).trans (List.map_id _)).symm
    unfold withPaths
    split <;> simp
  | cons path paths ih =>
    have hfirst : (c.addArtifact name path).artifacts =
        c.artifacts.map (withPaths ⟨name, [path]⟩) := addPath_of_mem hnodup h
    have hnames : (c.addArtifact name path).artifacts.map (·.name) = c.artifacts.map (·.name) := by
      rw [hfirst, map_name_withPaths]
    rw [List.foldl_cons, ih _ (hnames ▸ hnodup) (hnames ▸ h), hfirst, List.map_map]
    refine List.map_congr_left fun b _ => ?_
    by_cases hb : b.name = name
    · simp [withPaths, hb]
    · simp [withPaths, hb]

theorem map_name_mergedArtifacts (artifacts : List Artifact) :
    (mergedArtifacts artifacts).map (·.name) = namesWithPaths artifacts := by
  rw [mergedArtifacts, List.map_map]
  exact List.map_id _

theorem pathsOf_append (artifacts : List Artifact) (a : Artifact) (name : String) :
    pathsOf (artifacts ++ [a]) name =
      pathsOf artifacts name ++ if name = a.name then a.paths else [] := by
  rw [pathsOf, List.filter_append, List.flatMap_append]
  by_cases h : name = a.name
  · simp [h, pathsOf]
  · simp [h, Ne.symm h, pathsOf]

theorem namesWithPaths_append (artifacts : List Artifact) {a : Artifact} (h : a.paths ≠ []) :
    namesWithPaths (artifacts ++ [a]) =
      if a.name ∈ namesWithPaths artifacts then namesWithPaths artifacts
      else namesWithPaths artifacts ++ [a.name] := by
  have hfull : (artifacts ++ [a]).filter (fun a => !a.paths.isEmpty) =
      (artifacts.filter fun a => !a.paths.isEmpty) ++ [a] := by
    simp [h]
  rw [namesWithPaths, hfull, List.map_append, List.map_singleton, ← foldl_addNew_nil,
    List.foldl_append, foldl_addNew_nil]
  simp only [List.foldl_cons, List.foldl_nil, List.contains_iff_mem]
  rfl

/-- An artifact without paths leaves no trace. -/
theorem mergedArtifacts_append_of_isEmpty (artifacts : List Artifact) {a : Artifact}
    (h : a.paths = []) : mergedArtifacts (artifacts ++ [a]) = mergedArtifacts artifacts := by
  have hnames : namesWithPaths (artifacts ++ [a]) = namesWithPaths artifacts := by
    simp [namesWithPaths, h]
  rw [mergedArtifacts, hnames]
  refine List.map_congr_left fun name _ => ?_
  rw [pathsOf_append, h, ite_self, List.append_nil]

/-- A further artifact of a name adds its paths to the others of the name. -/
theorem mergedArtifacts_append_of_mem {artifacts : List Artifact} {a : Artifact}
    (hpaths : a.paths ≠ []) (h : a.name ∈ namesWithPaths artifacts) :
    mergedArtifacts (artifacts ++ [a]) = (mergedArtifacts artifacts).map (withPaths a) := by
  rw [mergedArtifacts, namesWithPaths_append artifacts hpaths, if_pos h, mergedArtifacts,
    List.map_map]
  refine List.map_congr_left fun name _ => ?_
  rw [pathsOf_append, Function.comp_apply, withPaths]
  split
  · rfl
  · rw [List.append_nil]

/-- The first artifact of a name comes after the others. -/
theorem mergedArtifacts_append_of_not_mem {artifacts : List Artifact} {a : Artifact}
    (hpaths : a.paths ≠ []) (h : a.name ∉ namesWithPaths artifacts) :
    mergedArtifacts (artifacts ++ [a]) = mergedArtifacts artifacts ++ [a] := by
  have hnone : pathsOf artifacts a.name = [] := by
    rw [pathsOf, List.flatMap_eq_nil_iff]
    intro other hother
    obtain ⟨hmem, hname⟩ := List.mem_filter.1 hother
    by_contra hsome
    refine h (List.mem_eraseDups.2 (List.mem_map.2 ⟨other, List.mem_filter.2 ⟨hmem, ?_⟩, ?_⟩))
    · simpa using hsome
    · simpa using hname
  rw [mergedArtifacts, namesWithPaths_append artifacts hpaths, if_neg h, List.map_append,
    List.map_singleton, pathsOf_append, hnone, if_pos rfl, List.nil_append]
  refine congrArg (· ++ [a]) (List.map_congr_left fun name hname => ?_)
  have hne : name ≠ a.name := fun heq => h (heq ▸ hname)
  rw [pathsOf_append, if_neg hne, List.append_nil]

/-- The paths of some artifacts make one artifact for each name that has some. -/
theorem artifacts_foldl_addPaths {c : Contents} (hc : c.artifacts = [])
    (artifacts : List Artifact) :
    (artifacts.foldl addPaths c).artifacts = mergedArtifacts artifacts := by
  induction artifacts using List.reverseRecOn with
  | nil => exact hc
  | append_singleton artifacts a ih =>
    rw [List.foldl_append]
    -- What the artifacts before the last one have left is merged, so each name is there once.
    show (addPaths (artifacts.foldl addPaths c) a).artifacts = _
    by_cases hpaths : a.paths = []
    · rw [mergedArtifacts_append_of_isEmpty artifacts hpaths, ← ih, addPaths, hpaths]
      rfl
    · have hnames : (artifacts.foldl addPaths c).artifacts.map (·.name) =
          namesWithPaths artifacts := by rw [ih, map_name_mergedArtifacts]
      by_cases hname : a.name ∈ namesWithPaths artifacts
      · have hnodup : (namesWithPaths artifacts).Nodup := nodup_eraseDups _
        rw [mergedArtifacts_append_of_mem hpaths hname,
          artifacts_addPaths_of_mem _ (hnames ▸ hnodup) (hnames ▸ hname), ih]
      · rw [mergedArtifacts_append_of_not_mem hpaths hname, addPaths_new _ (hnames ▸ hname) hpaths]
        exact congrArg (· ++ [a]) ih

/-! ## Caches and artifacts among the steps -/

/-- The steps of CircleCI that bring a cache or an artifact. -/
def carrierSteps : List String := ["save_cache", "store_artifacts"]

/-- What is read of a step brings caches and artifacts only if the step is called so. -/
theorem carried_readField (c : Contents) {kind : String} (h : kind ∉ carrierSteps) (body : Node) :
    (readField c kind body).artifacts = c.artifacts ∧ (readField c kind body).cache = c.cache := by
  simp only [carrierSteps, List.mem_cons, List.not_mem_nil, or_false, not_or] at h
  apply readField_cases (motive := fun d : Contents =>
    d.artifacts = c.artifacts ∧ d.cache = c.cache)
  case run => exact fun _ => ⟨rfl, rfl⟩
  case checkout => exact fun _ => ⟨rfl, rfl⟩
  case cache => exact fun heq => absurd heq h.1
  case artifact => exact fun heq => absurd heq h.2
  case nothing => exact ⟨rfl, rfl⟩
  case command => exact fun _ => ⟨rfl, rfl⟩

/-- What is said of a step brings neither caches nor artifacts. -/
theorem carried_addSaid (c : Contents) {s : Step} (h : ∀ id ∈ s.actionId?, id ∉ carrierSteps) :
    (addSaid c s).artifacts = c.artifacts ∧ (addSaid c s).cache = c.cache := by
  apply addSaid_cases (motive := fun d : Contents =>
    d.artifacts = c.artifacts ∧ d.cache = c.cache)
  case void => exact fun _ => ⟨rfl, rfl⟩
  case run => exact fun _ _ _ => ⟨rfl, rfl⟩
  case checkout => exact fun _ _ _ _ _ => ⟨rfl, rfl⟩
  case drop => exact fun _ _ _ _ _ _ => ⟨rfl, rfl⟩
  case plain => exact fun _ _ _ _ _ => ⟨rfl, rfl⟩
  case body =>
    intro id inputs _ _ heq _ _
    exact carried_readField c (h id (by simp [Step.actionId?, heq])) _

/-- The steps of a job bring neither caches nor artifacts. -/
theorem carried_foldl_addSaid {steps : List Step}
    (h : ∀ s ∈ steps, ∀ id ∈ s.actionId?, id ∉ carrierSteps) (c : Contents) :
    (steps.foldl addSaid c).artifacts = c.artifacts ∧
      (steps.foldl addSaid c).cache = c.cache := by
  induction steps generalizing c with
  | nil => exact ⟨rfl, rfl⟩
  | cons s steps ih =>
    obtain ⟨hartifacts, hcache⟩ := carried_addSaid c (h s (List.mem_cons_self ..))
    have hrest := ih (fun s hs => h s (List.mem_cons_of_mem _ hs)) (addSaid c s)
    rwa [hartifacts, hcache] at hrest

theorem cache_addPaths (c : Contents) (a : Artifact) : (addPaths c a).cache = c.cache :=
  List.foldlRecOn (motive := fun c' : Contents => c'.cache = c.cache) _ _ rfl fun _ hc _ _ => hc

/-- A job says its own caches and its artifacts by their names. -/
theorem carried_saidContents {j : Job} (h : ∀ id ∈ j.actionIds, id ∉ carrierSteps) :
    (saidContents j).artifacts = mergedArtifacts j.artifacts ∧
      (saidContents j).cache = j.cache := by
  have hsteps : ∀ s ∈ j.steps, ∀ id ∈ s.actionId?, id ∉ carrierSteps :=
    fun s hs id hid => h id (List.mem_filterMap.2 ⟨s, hs, hid⟩)
  obtain ⟨hartifacts, hcache⟩ := carried_foldl_addSaid hsteps
    (if j.hasCheckout then .empty else Contents.empty.addStep checkout)
  have hfirst : (if j.hasCheckout then Contents.empty
      else Contents.empty.addStep checkout).artifacts = [] ∧
        (if j.hasCheckout then Contents.empty else Contents.empty.addStep checkout).cache = [] := by
    split
    · exact ⟨rfl, rfl⟩
    · exact ⟨rfl, rfl⟩
  -- The steps leave no caches and no artifacts, so all of them are those of the job.
  rw [hfirst.1] at hartifacts
  rw [hfirst.2] at hcache
  constructor
  · refine artifacts_foldl_addPaths ?_ j.artifacts
    exact hartifacts
  · refine List.foldlRecOn (motive := fun c : Contents => c.cache = j.cache) _ _ ?_
      fun c hc a _ => (cache_addPaths c a).trans hc
    show (j.steps.foldl addSaid _).cache ++ j.cache = j.cache
    rw [hcache, List.nil_append]

/-! ## Jobs -/

/-- How a job that was written and read, `q`, carries what the job `j` of a pipeline has besides
steps. -/
structure Carries (p : Pipeline) (q j : Job) : Prop where
  name : q.name = (keys p).key j.name
  environment : q.environment.entries = p.environment.overlaid j.environment
  caches : q.cache = j.cache
  artifacts : q.artifacts = mergedArtifacts j.artifacts
  services : q.services.map (fun s => (s.image, s.env)) =
    j.services.map fun s => (s.image, s.env)

/-- A job of a file carries what the job has. -/
theorem carries_saidJob (p : Pipeline) {j : Job} (h : ∀ id ∈ j.actionIds, id ∉ carrierSteps) :
    Carries p (saidJob (keys p) p.environment j) j where
  name := rfl
  environment := Vars.entries_insertAll_of_nodup p.environment j.environment.nodup
  caches := (carried_saidContents h).2
  artifacts := (carried_saidContents h).1
  services := by
    show (j.services.map saidService).map _ = _
    rw [List.map_map]
    rfl

/-- A pipeline of short names, with short keys for its own and those of its jobs, is written for
CircleCI and read back with the variables, caches, artifacts and services of its jobs.  An action
that is called like a step with a cache or an artifact would be read as one. -/
theorem carries_read_write {p : Pipeline} (h : ShortVariableNames p) (settings : Settings)
    (hname : keyFits (workflowName p.name) = true)
    (hkeys : ∀ j ∈ p.jobs, keyFits ((keys p).key j.name) = true)
    (hactions : ∀ j ∈ p.jobs, ∀ id ∈ j.actionIds, id ∉ carrierSteps) :
    ∃ text q, Conversion.write .circleci p = .ok text ∧
      Conversion.read settings .circleci text = .ok q ∧
        List.Forall₂ (Carries p) q.jobs p.jobs := by
  refine ⟨write p, said p, rfl, ?_, ?_⟩
  · rw [Conversion.read_circleci, h.reads_circleci settings hname hkeys]
    rfl
  · rw [said, List.forall₂_map_left_iff, List.forall₂_same]
    exact fun j hj => carries_saidJob p (hactions j hj)

/-- A pipeline whose job sets a variable of the pipeline anew, has artifacts of equal names and
without paths, and a service that is not named after its image. -/
def sharedFields : Pipeline where
  name := "Nightly"
  triggers := []
  environment := ⟨[("MODE", "release"), ("LANG", "C")], by decide⟩
  jobs := [
    { Job.new "Build" "rust:1.80" with
      environment := ⟨[("TARGET", "wasm"), ("MODE", "debug")], by decide⟩
      services := [⟨"db", "postgres:16", ["5432:5432"], ⟨[("PGDATABASE", "app")], by decide⟩⟩]
      steps := [.run "make", .ofAction (.uses "rust/clippy" ⟨[("flags", "-D")], by decide⟩)]
      artifacts := [⟨"logs", []⟩, ⟨"bin", ["out/app"]⟩, ⟨"logs", ["a.log"]⟩, ⟨"empty", []⟩,
        ⟨"bin", ["out/cli", "out/app"]⟩]
      cache := [⟨"cargo", ["target"]⟩, ⟨"none", []⟩, ⟨"cargo", ["target"]⟩] }]

theorem shortVariableNames_sharedFields : ShortVariableNames sharedFields := by decide

theorem carries_read_sharedFields : ∃ text q,
    Conversion.write .circleci sharedFields = .ok text ∧
      Conversion.read {} .circleci text = .ok q ∧
        q.jobs.map (fun j => (j.environment.entries, j.cache, j.artifacts,
            j.services.map fun s => (s.image, s.env))) =
          [([("MODE", "debug"), ("LANG", "C"), ("TARGET", "wasm")],
            [⟨"cargo", ["target"]⟩, ⟨"none", []⟩, ⟨"cargo", ["target"]⟩],
            [⟨"bin", ["out/app", "out/cli", "out/app"]⟩, ⟨"logs", ["a.log"]⟩],
            [("postgres:16", ⟨[("PGDATABASE", "app")], by decide⟩)])] := by
  have hlength : ∀ j ∈ sharedFields.jobs, Text.Ordinary ((keys sharedFields).key j.name) ∧
      ((keys sharedFields).key j.name).toList.length ≤ 511 := by decide
  have hkeys : ∀ j ∈ sharedFields.jobs, keyFits ((keys sharedFields).key j.name) = true :=
    fun j hj => keyFits_of_length (hlength j hj).1.chars (hlength j hj).2
  have hname : keyFits (workflowName sharedFields.name) = true :=
    keyFits_of_length (by decide : Text.Ordinary (workflowName "Nightly")).chars (by decide)
  obtain ⟨text, q, hwrite, hread, hjobs⟩ :=
    carries_read_write shortVariableNames_sharedFields {} hname hkeys (by decide)
  refine ⟨text, q, hwrite, hread, ?_⟩
  obtain ⟨job, rest, hjob, hrest, heq⟩ := List.forall₂_cons_right_iff.1 hjobs
  obtain rfl := List.forall₂_nil_right_iff.1 hrest
  rw [heq, List.map_singleton, hjob.environment, hjob.caches, hjob.artifacts, hjob.services]
  rfl

/-- A job of a long name makes a file that cannot be read, whatever the job has. -/
theorem not_carries_read_longJob : ShortVariableNames longJob ∧
    (∀ j ∈ longJob.jobs, ∀ id ∈ ["run", "save_cache", "store_artifacts"], id ∉ j.actionIds) ∧
      ∃ text, Conversion.write .circleci longJob = .ok text ∧
        Conversion.read {} .circleci text = .error (.malformed .circleci .notYaml) := by
  have hcanonical := canonical_longJob
  have hactions : longJob.jobs.map (·.actionIds) = [["actions/checkout@v4"]] := rfl
  have hids : ∀ j ∈ longJob.jobs, j.actionIds = ["actions/checkout@v4"] := fun j hj =>
    List.mem_singleton.1 (hactions ▸ List.mem_map_of_mem hj)
  refine ⟨⟨hcanonical.names, hcanonical.texts, fun name hname => ?_, fun j hj => ?_⟩,
    fun j hj => ?_, write longJob, rfl, ?_⟩
  · exact absurd hname List.not_mem_nil
  · rw [hids j hj]
    decide
  · rw [hids j hj]
    decide
  · rw [Conversion.read_circleci, read_write_said hcanonical.writable, fits_longJob]
    rfl

end Circleci
end CiPipelines

import CiPipelines.Proofs.CircleciSteps

/-!
# What a CircleCI file says

A file that was written for a pipeline is read as a pipeline again: the one that the file says.
There every job runs in an image and has the environment of the pipeline besides its own, services
are named after their images, and jobs go by their keys.  The dependencies of the jobs are written
apart from the jobs and go back to them by key.  A file can be read as long as nothing that is
written as a key is too long to be read as one.
-/

namespace CiPipelines
namespace Circleci

open Outline

/-! ## What is said -/

/-- A service of a file, under the name of its image. -/
def saidService (s : Service) : Service := ⟨Service.nameOfImage s.image, s.image, [], s.env⟩

/-- A job of a file, with the environment of the pipeline repeated in it. -/
def saidJob (keys : KeyTable) (environment : Vars) (j : Job) : Job where
  name := keys.key j.name
  runsOn := if j.runsOnImage then j.runsOn else usualImage
  dependsOn := addMissing [] (keys.keys j.dependsOn)
  environment := environment.insertAll j.environment.entries
  services := j.services.map saidService
  steps := (saidContents j).steps
  artifacts := (saidContents j).artifacts
  cache := (saidContents j).cache
  condition := none

/-- The keys of the jobs of a pipeline. -/
def keys (p : Pipeline) : KeyTable := .ofJobs .standard p.jobs

/-- The pipeline that a file says. -/
def said (p : Pipeline) : Pipeline where
  name := "Pipeline"
  triggers := [.on .push]
  environment := .empty
  jobs := p.jobs.map (saidJob (keys p) p.environment)

/-! ## What can be written -/

/-- A step that can be written. -/
structure WritableStep (s : Step) : Prop where
  texts : ∀ t ∈ s.texts, Text.Ordinary t
  variableNames : "<<" ∉ s.env.names
  inputNames : "<<" ∉ s.inputNames
  action : s.inputNames ≠ [] → s.actionId? ≠ some "<<"

/-- A job that can be written.  The names and ports of its services are not. -/
structure WritableJob (j : Job) : Prop where
  runner : Text.Ordinary j.runsOn
  environment : SoundVars j.environment
  services : ∀ s ∈ j.services, Text.Ordinary s.image ∧ SoundVars s.env
  steps : ∀ s ∈ j.steps, WritableStep s
  artifacts : ∀ a ∈ j.artifacts, ∀ t ∈ a.texts, Text.Ordinary t
  cache : ∀ c ∈ j.cache, ∀ t ∈ c.texts, Text.Ordinary t

/-- A pipeline that can be written. -/
structure Writable (p : Pipeline) : Prop where
  names : (p.jobs.map (·.name)).Nodup
  environment : SoundVars p.environment
  jobs : ∀ j ∈ p.jobs, WritableJob j

/-! ## Keys of a file -/

/-- The keys that a step brings to a file: the names of its variables, or a command and the names
of its inputs. -/
def stepKeys (s : Step) : List String :=
  if s.isVoid then []
  else match s.action with
    | .uses id inputs =>
      if s.isCheckout then []
      else if isCommand id then if inputs.isEmpty then [] else id :: inputs.names
      else []
    | .run _ => s.env.names

/-- A step brings at most its own name and those of its inputs and variables as keys. -/
theorem mem_stepKeys {s : Step} {key : String} (h : key ∈ stepKeys s) :
    key ∈ s.env.names ∨ key ∈ s.inputNames ∨ s.inputNames ≠ [] ∧ s.actionId? = some key := by
  obtain ⟨name, action, env, condition, directory⟩ := s
  unfold stepKeys at h
  split at h
  · exact absurd h List.not_mem_nil
  cases action with
  | run command => exact .inl h
  | uses id inputs =>
    dsimp only at h
    split at h
    · exact absurd h List.not_mem_nil
    split at h
    · split at h
      · exact absurd h List.not_mem_nil
      · rename_i hne
        rcases List.mem_cons.1 h with rfl | h
        · refine .inr (.inr ⟨?_, rfl⟩)
          simpa [Step.inputNames, Step.inputs?, Vars.names, Vars.isEmpty] using hne
        · exact .inr (.inl h)
    · exact absurd h List.not_mem_nil

/-- The keys that a job brings to a file, its own included. -/
def jobKeys (keys : KeyTable) (environment : Vars) (j : Job) : List String :=
  keys.key j.name :: j.services.flatMap (fun s => s.env.names)
    ++ (environment.insertAll j.environment.entries).names ++ j.steps.flatMap stepKeys

/-- Whether all keys that a pipeline brings to a file are short enough to be read as keys. -/
def fits (p : Pipeline) : Bool :=
  keyFits (workflowName p.name) &&
    p.jobs.all fun j => (jobKeys (keys p) p.environment j).all keyFits

/-! ## Items of a job -/

section

variable {levels : Nat}

/-- A step is written as items, which fit if the keys that it brings do. -/
theorem items_stepOutlines {s : Step} (h : WritableStep s) :
    Items (levels + 3) ((stepKeys s).all keyFits) (stepOutlines s) := by
  obtain ⟨hname, haction, henv, -, hdirectory⟩ := Step.forall_texts.1 h.texts
  unfold stepOutlines stepKeys
  split
  · exact .nil
  cases heq : s.action with
  | uses id inputs =>
    rw [heq] at haction
    have hid : Text.Ordinary id := haction id (by simp [Action.texts])
    dsimp only
    split
    · exact .text (by decide)
    split
    · split
      · exact .text hid
      · rename_i hne
        have hinputs : SoundVars inputs := soundVars_of_texts
          (fun t ht => haction t (by simp [Action.texts, ht]))
          (by simpa [Step.inputNames, Step.inputs?, heq] using h.inputNames)
        -- With inputs the command is a key, and no merge key; without inputs it is a text.
        have hkey : id ≠ "<<" := by
          rintro rfl
          refine h.action ?_ (by simp [Step.actionId?, heq])
          simpa [Step.inputNames, Step.inputs?, heq, Vars.names, Vars.isEmpty] using hne
        exact .fields (.field hid.chars hkey ((Part.varLines hinputs).fields inputs.nodup))
          (by simp) (List.cons_ne_nil _ _)
    · exact .nil
  | run command =>
    rw [heq] at haction
    have hlines : Part (levels + 1) ["name", "command", "environment", "working_directory"]
        (s.env.names.all keyFits && true) (runLines s.name command s.env s.directory) :=
      (((Part.textField (by decide) hname).append
        (.formatField (by decide) (.value (haction command (by simp [Action.texts]))))).append
        (.varsField (by decide) (soundVars_of_texts henv h.variableNames))).append
        (.textField (by decide) hdirectory)
    rw [Bool.and_true] at hlines
    exact .fields (.formatField (by decide) (hlines.fields (by decide))) (by decide : ["run"].Nodup)
      (List.cons_ne_nil _ _)

/-- A cache is written as an item. -/
theorem items_cacheOutline {c : Cache} (htexts : ∀ t ∈ c.texts, Text.Ordinary t) :
    Items (levels + 3) true [cacheOutline c] := by
  have hlines : Part (levels + 1) ["key", "paths"] true
      (.field "key" (.text c.key) :: listField "paths" c.paths) :=
    (Part.formatField (by decide) (.text (htexts c.key (by simp [Cache.texts])))).append
      (.listField (by decide) fun t ht => htexts t (by simp [Cache.texts, ht]))
  exact .fields (.formatField (by decide) (hlines.fields (by decide)))
    (by decide : ["save_cache"].Nodup) (List.cons_ne_nil _ _)

/-- The paths of an artifact are written as items. -/
theorem items_artifactOutlines {a : Artifact} (htexts : ∀ t ∈ a.texts, Text.Ordinary t) :
    Items (levels + 3) true (artifactOutlines a) := by
  refine .shortMap fun path hpath => ?_
  have hlines : Part (levels + 1) ["path", "destination"] true
      [.field "path" (.text path), .field "destination" (.text a.name)] :=
    (Part.formatField (by decide) (.text (htexts path (by simp [Artifact.texts, hpath])))).append
      (.formatField (by decide) (.text (htexts a.name (by simp [Artifact.texts]))))
  exact .fields (.formatField (by decide) (hlines.fields (by decide)))
    (by decide : ["store_artifacts"].Nodup) (List.cons_ne_nil _ _)

/-- A service is written as an item. -/
theorem items_serviceOutline {s : Service} (himage : Text.Ordinary s.image)
    (henv : SoundVars s.env) :
    Items (levels + 2) (s.env.names.all keyFits) [serviceOutline s] :=
  .fields ((Part.formatField (by decide) (.text himage)).append (.varsField (by decide) henv))
    (by decide : ["image", "environment"].Nodup) (List.cons_ne_nil _ _)

/-- A service is read under the name of its image. -/
theorem readService?_serviceOutline (s : Service) :
    readService? (node (serviceOutline s)) = some (saidService s) := by
  simp [readService?, serviceOutline, Node.textAt?, Node.varsAt, List.lookup_cons, saidService]

end

/-! ## Jobs -/

/-- The image of a job. -/
def jobImage (j : Job) : String := if j.runsOnImage then j.runsOn else usualImage

/-- The fields of a job in the given environment. -/
def jobLines (environment : Vars) (j : Job) : List (Line Outline) :=
  [.field "docker" (.list (.fields [.field "image" (.text (jobImage j))]
      :: j.services.map serviceOutline))]
    ++ varsField "environment" (environment.insertAll j.environment.entries)
    ++ [.field "steps" (.list (jobSteps j))]

/-- The fields that a job can have. -/
def jobFields : List String := ["docker", "environment", "steps"]

theorem soundVars_empty : SoundVars .empty := ⟨by decide, by decide⟩

/-- Variables that are set one after the other. -/
theorem soundVars_insertAll {vars : Vars} (h : SoundVars vars) {entries : List (String × String)}
    (hentries : ∀ entry ∈ entries, (Text.Ordinary entry.1 ∧ entry.1 ≠ "<<") ∧
      Text.Ordinary entry.2) : SoundVars (vars.insertAll entries) where
  names name hname := by
    rcases Vars.mem_names_insertAll hname with hname | hname
    · exact h.names name hname
    · obtain ⟨entry, hentry, rfl⟩ := List.mem_map.1 hname
      exact (hentries entry hentry).1
  values entry hentry := by
    rcases Vars.mem_entries_insertAll hentry with hentry | hentry
    · exact h.values entry hentry
    · exact (hentries entry hentry).2

section

variable {levels : Nat} {environment : Vars} {j : Job}

section

variable (h : WritableJob j)

include h

theorem items_jobSteps :
    Items (levels + 3) ((j.steps.flatMap stepKeys).all keyFits) (jobSteps j) := by
  have hfirst : Items (levels + 3) true (if j.hasCheckout then [] else [.text "checkout"]) := by
    split
    · exact .nil
    · exact .text (by decide)
  have hsteps : Items (levels + 3) (j.steps.all fun s => (stepKeys s).all keyFits)
      (j.steps.flatMap stepOutlines) := .flatMap fun s hs => items_stepOutlines (h.steps s hs)
  have hcaches : Items (levels + 3) true (j.cache.map cacheOutline) :=
    .shortMap fun c hc => items_cacheOutline (h.cache c hc)
  have hartifacts : Items (levels + 3) true (j.artifacts.flatMap artifactOutlines) :=
    .shortFlatMap fun a ha => items_artifactOutlines (h.artifacts a ha)
  exact (((hfirst.append hsteps).append hcaches).append hartifacts).of_eq
    (by simp [List.all_flatMap])

theorem WritableJob.image : Text.Ordinary (jobImage j) := by
  unfold jobImage
  split
  · exact h.runner
  · decide

theorem WritableJob.allVars (henv : SoundVars environment) :
    SoundVars (environment.insertAll j.environment.entries) :=
  soundVars_insertAll henv fun entry hentry =>
    ⟨h.environment.names entry.1 (List.mem_map_of_mem hentry), h.environment.values entry hentry⟩

/-- A job has fixed fields, and fits if all keys that it brings besides its own do. -/
theorem part_jobLines (keys : KeyTable) (henv : SoundVars environment) :
    Part (levels + 4) jobFields ((jobKeys keys environment j).tail.all keyFits)
      (jobLines environment j) := by
  have hrunner : Items (levels + 3) true [.fields [.field "image" (.text (jobImage j))]] :=
    .fields (.formatField (by decide) (.text h.image)) (by decide : ["image"].Nodup)
      (List.cons_ne_nil _ _)
  have hservices : Items (levels + 3) (j.services.all fun s => s.env.names.all keyFits)
      (j.services.map serviceOutline) :=
    .map fun s hs => items_serviceOutline (h.services s hs).1 (h.services s hs).2
  exact (((Part.formatField (by decide) (hrunner.append hservices).list).append
    (.varsField (by decide) (h.allVars henv))).append
    (.formatField (by decide) (items_jobSteps h).list)).of_eq
      (by simp [jobKeys, List.all_flatMap, Bool.and_assoc])

/-- A job fits if all keys that it brings do. -/
theorem part_jobLine {keys : KeyTable} (hkeys : ∀ name, IsKey (keys.key name))
    (henv : SoundVars environment) : Part (levels + 5) [keys.key j.name]
      ((jobKeys keys environment j).all keyFits) [jobLine keys environment j] :=
  .field (hkeys j.name).ordinary.chars (hkeys j.name).ne_merge
    ((part_jobLines h keys henv).fields (by decide))

end

/-- A job as it is read before the workflow says its dependencies. -/
def detached (keys : KeyTable) (environment : Vars) (j : Job) : Job :=
  { saidJob keys environment j with dependsOn := [] }

/-- What is written for a job is read as the job, without its dependencies, that a file says. -/
theorem readJob_jobLines (settings : Settings) (keys : KeyTable) (environment : Vars) (j : Job) :
    readJob settings (keys.key j.name) (node (.fields (jobLines environment j))) =
      detached keys environment j := by
  have himages : (node (.fields (jobLines environment j))).itemsAt "docker" =
      .fields [("image", .scalar (jobImage j))] :: (j.services.map serviceOutline).map node := by
    simp [jobLines, Node.itemsAt, node_fields]
  have hservices : ((j.services.map serviceOutline).map node).filterMap readService? =
      j.services.map saidService := by
    have hread : readService? ∘ node ∘ serviceOutline = some ∘ saidService :=
      funext readService?_serviceOutline
    rw [List.filterMap_map, List.filterMap_map]
    exact (congrArg (fun f => j.services.filterMap f) hread).trans
      (congrFun List.filterMap_eq_map j.services)
  have hitems : (node (.fields (jobLines environment j))).itemsAt "steps" =
      (jobSteps j).map node := by
    simp [jobLines, Node.itemsAt, List.lookup_append, List.lookup_cons]
  have henv : (node (.fields (jobLines environment j))).varsAt "environment" =
      environment.insertAll j.environment.entries := by
    simp [jobLines, Node.varsAt, List.lookup_append, List.lookup_cons]
  rw [readJob, himages, hitems, henv, foldl_jobSteps, List.tail_cons, hservices]
  rfl

end

/-! ## Dependencies -/

section

variable {keys : KeyTable}

/-- What the workflow requires for a job. -/
def requirementsOf (keys : KeyTable) (j : Job) : List (String × List String) :=
  if j.dependsOn.isEmpty then [] else [(keys.key j.name, keys.keys j.dependsOn)]

/-- The entry of a job in the workflow is read as its requirements. -/
theorem entries_workflowOutline (j : Job) :
    (node (workflowOutline keys j)).entries.map (fun (name, body) =>
      (name, body.textsAt "requires")) = requirementsOf keys j := by
  unfold workflowOutline requirementsOf
  split
  · rfl
  · simp [Node.textsAt]

/-- The first job with the name gets the requirements. -/
theorem require_first {name : String} {needed : List String} {done todo : List Job} {job : Job}
    (hname : job.name = name) (hdone : name ∉ done.map (·.name)) :
    require name needed (done ++ job :: todo) =
      done ++ { job with dependsOn := addMissing job.dependsOn needed } :: todo := by
  induction done with
  | nil => rw [List.nil_append, require, if_pos hname, List.nil_append]
  | cons other done ih =>
    have hother : other.name ≠ name := fun heq => hdone (heq ▸ List.mem_cons_self ..)
    have ih := ih fun hmem => hdone (List.mem_cons_of_mem _ hmem)
    rw [List.cons_append, require, if_neg hother, ih]
    rfl

/-- A job gets the requirements that the workflow has for it. -/
theorem foldl_requirementsOf {environment : Vars} {j : Job} {done todo : List Job}
    (hnew : keys.key j.name ∉ done.map (·.name)) :
    (requirementsOf keys j).foldl (fun jobs (name, needed) => require name needed jobs)
        (done ++ detached keys environment j :: todo) =
      done ++ saidJob keys environment j :: todo := by
  unfold requirementsOf
  split
  · rename_i hempty
    have hnone : saidJob keys environment j = detached keys environment j := by
      have hneeds : addMissing [] (keys.keys j.dependsOn) = [] := by
        rw [List.isEmpty_iff.1 hempty]
        rfl
      rw [detached, ← hneeds]
      rfl
    rw [hnone]
    rfl
  · exact require_first rfl hnew

/-- The requirements of the workflow go back to the jobs, one job after the other. -/
theorem foldl_requirements {environment : Vars} {todo : List Job} (done : List Job)
    (hnodup : (done.map (·.name) ++ todo.map fun j => keys.key j.name).Nodup) :
    (todo.flatMap (requirementsOf keys)).foldl (fun jobs (name, needed) => require name needed jobs)
        (done ++ todo.map (detached keys environment)) =
      done ++ todo.map (saidJob keys environment) := by
  induction todo generalizing done with
  | nil => rfl
  | cons j todo ih =>
    have hnew : keys.key j.name ∉ done.map (·.name) := by
      intro hmem
      exact (List.nodup_append.1 hnodup).2.2 _ hmem _ (List.mem_cons_self ..) rfl
    have ih := ih (done ++ [saidJob keys environment j]) (by simpa [saidJob] using hnodup)
    rw [List.append_assoc, List.append_assoc] at ih
    rw [List.flatMap_cons, List.foldl_append, List.map_cons, foldl_requirementsOf hnew]
    exact ih

end

/-! ## Files -/

theorem isWord_version : IsWord "2.1" :=
  ⟨(by decide : Text.Ordinary "2.1").chars, .inr (by decide), by decide +kernel⟩

theorem isWord_braces : IsWord "\x7b\x7d" :=
  ⟨(by decide : Text.Ordinary "\x7b\x7d").chars, .inl (by decide), by decide⟩

/-- The jobs of a file. -/
def jobsOutline (p : Pipeline) : Outline :=
  if p.jobs.isEmpty then .word "\x7b\x7d"
  else .fields (p.jobs.map (jobLine (keys p) p.environment))

/-- The workflow of a file. -/
def workflowLines (p : Pipeline) : List (Line Outline) :=
  [.field (workflowName p.name) (.fields
    [.field "jobs" (.list (p.jobs.map (workflowOutline (keys p))))])]

/-- The lines of a file. -/
theorem outline_eq (p : Pipeline) : outline p =
    [.field "version" (.word "2.1"), .empty, .field "jobs" (jobsOutline p), .empty,
      .field "workflows" (.fields (workflowLines p))] := by
  have hkeys : KeyTable.ofJobs .standard p.jobs = keys p := rfl
  rw [outline, hkeys, jobsOutline]
  split <;> rfl

/-- The name of a workflow is a key, and not that of the version of all workflows. -/
theorem isKey_workflowName (name : String) :
    IsKey (workflowName name) ∧ workflowName name ≠ "version" := by
  unfold workflowName
  dsimp only
  split
  · have hchars : "main".toList.all isKeyChar = true := by decide
    exact ⟨⟨by decide, List.all_eq_true.1 hchars⟩, by decide⟩
  · rename_i hname
    exact ⟨KeyRules.isKey_cleanName name, by simpa using fun heq => hname (by simp [heq])⟩

/-- The workflow of a file that was read has a short name. -/
theorem keyFits_workflowName_pipeline : keyFits (workflowName "Pipeline") = true :=
  keyFits_of_length (by decide : Text.Ordinary "pipeline").chars (by decide)

section

variable {p : Pipeline} {levels : Nat}

/-- The fields of a file. -/
def rootFields : List String := ["version", "jobs", "workflows"]

theorem isKey_keys (name : String) : IsKey ((keys p).key name) :=
  (KeyTable.key_ofJobs KeyRules.sound_standard p.jobs name).1

/-- The workflow names the jobs that have dependencies. -/
theorem items_workflowOutline (j : Job) : Items (levels + 4)
    (j.dependsOn.isEmpty || keyFits ((keys p).key j.name)) [workflowOutline (keys p) j] := by
  have hkey : IsKey ((keys p).key j.name) := isKey_keys j.name
  unfold workflowOutline
  dsimp only
  split
  · rename_i hempty
    rw [hempty]
    exact .text hkey.ordinary
  · rename_i hne
    have hneeds : ∀ t ∈ (keys p).keys j.dependsOn, Text.Ordinary t := by
      intro t ht
      obtain ⟨name, -, rfl⟩ := List.mem_map.1 ht
      exact (isKey_keys name).ordinary
    have hlines : Part (levels + 2) ["requires"] true
        (listField "requires" ((keys p).keys j.dependsOn)) := .listField (by decide) hneeds
    refine (Items.fields (.field hkey.ordinary.chars hkey.ne_merge (hlines.fields (by decide)))
      (by simp) (List.cons_ne_nil _ _)).of_eq ?_
    rw [Bool.and_true, Bool.eq_false_iff.2 hne, Bool.false_or]

theorem part_workflowLines : Part (levels + 6) [workflowName p.name]
    (keyFits (workflowName p.name) && p.jobs.all fun j =>
      j.dependsOn.isEmpty || keyFits ((keys p).key j.name)) (workflowLines p) := by
  have hname := (isKey_workflowName p.name).1
  have hjobs : Part (levels + 5) ["jobs"]
      (p.jobs.all fun j => j.dependsOn.isEmpty || keyFits ((keys p).key j.name))
      [.field "jobs" (.list (p.jobs.map (workflowOutline (keys p))))] :=
    .formatField (by decide) (Items.map fun j _ => items_workflowOutline j).list
  exact .field hname.ordinary.chars hname.ne_merge (hjobs.fields (by decide))

/-- The workflow is read as the requirements of the jobs. -/
theorem requirements_workflowLines {root : Node}
    (h : root.get? "workflows" = some (node (.fields (workflowLines p)))) :
    requirements root = p.jobs.flatMap (requirementsOf (keys p)) := by
  generalize hworkflow : node (.fields
    [.field "jobs" (.list (p.jobs.map (workflowOutline (keys p))))]) = workflow
  have hentries : root.entriesAt "workflows" = [(workflowName p.name, workflow)] := by
    rw [Node.entriesAt, h, ← hworkflow]
    simp [workflowLines]
  have hitems : workflow.itemsAt "jobs" = (p.jobs.map (workflowOutline (keys p))).map node := by
    simp [← hworkflow, Node.itemsAt]
  have hname : (workflowName p.name != "version") = true :=
    bne_iff_ne.2 (isKey_workflowName p.name).2
  rw [requirements, hentries]
  simp only [List.filter_cons, hname, List.filter_nil, if_true, List.flatMap_singleton, hitems,
    List.map_map, List.flatMap_map, Function.comp_apply, entries_workflowOutline]

end

section

variable {p : Pipeline} (h : Writable p)

include h

/-- A file has fixed fields, and fits if all keys that the pipeline brings do. -/
theorem part_outline : Part 127 rootFields (fits p) (outline p) := by
  have hjobs : Written 127 (p.jobs.all fun j => (jobKeys (keys p) p.environment j).all keyFits)
      (jobsOutline p) := by
    unfold jobsOutline
    split
    · rename_i hempty
      rw [List.isEmpty_iff.1 hempty]
      exact .word isWord_braces
    · exact (Outline.Part.map fun j hj =>
        part_jobLine (h.jobs j hj) isKey_keys h.environment).fields
        (KeyTable.key_ofJobs_nodup KeyRules.sound_standard p.jobs h.names)
  have hworkflow := (@part_workflowLines p 120).fields (by simp)
  rw [outline_eq]
  refine ((Part.formatField (by decide) (.word isWord_version)).append
    ((Part.formatField (by decide) hjobs).append
      (Part.formatField (by decide) hworkflow).behindEmpty).behindEmpty).of_eq ?_
  -- The workflow has no keys that are not those of jobs, apart from its own.
  have hneeds : (p.jobs.all fun j => (jobKeys (keys p) p.environment j).all keyFits) = true →
      (p.jobs.all fun j => j.dependsOn.isEmpty || keyFits ((keys p).key j.name)) = true := by
    intro hfits
    refine List.all_eq_true.2 fun j hj => Bool.or_eq_true_iff.2 (.inr ?_)
    exact List.all_eq_true.1 (List.all_eq_true.1 hfits j hj) _ (by simp [jobKeys])
  rw [Bool.true_and, fits]
  cases hfits : p.jobs.all fun j => (jobKeys (keys p) p.environment j).all keyFits with
  | true => rw [hneeds hfits, Bool.true_and, Bool.and_true]
  | false => rw [Bool.false_and, Bool.and_false]

omit h in
/-- The entries of the jobs of a file. -/
theorem entriesAt_jobsOutline {root : Node} (hroot : root.get? "jobs" = some (node (jobsOutline p))) :
    root.entriesAt "jobs" =
      p.jobs.map fun j => ((keys p).key j.name, node (.fields (jobLines p.environment j))) := by
  rw [Node.entriesAt, hroot, jobsOutline]
  split
  · rename_i hempty
    rw [List.isEmpty_iff.1 hempty]
    rfl
  · have hlines : lineNodes (p.jobs.map (jobLine (keys p) p.environment)) =
        p.jobs.map fun j => ((keys p).key j.name, node (.fields (jobLines p.environment j))) :=
      lineNodes_map_field p.jobs _ _
    simp [hlines]

omit h in
/-- The jobs of a file are read under their keys, without their dependencies. -/
theorem readJobs_jobsOutline (settings : Settings) {root : Node}
    (hroot : root.get? "jobs" = some (node (jobsOutline p))) :
    readJobs settings root = p.jobs.map (detached (keys p) p.environment) := by
  have hfilter : ((p.jobs.map fun j => ((keys p).key j.name,
      node (.fields (jobLines p.environment j)))).filter fun (_, body) => body.isFields) =
      p.jobs.map fun j => ((keys p).key j.name, node (.fields (jobLines p.environment j))) := by
    refine List.filter_eq_self.2 fun entry hentry => ?_
    obtain ⟨j, -, rfl⟩ := List.mem_map.1 hentry
    exact isFields_node_fields (by simp [jobLines, lineKeys])
  rw [readJobs, entriesAt_jobsOutline hroot, hfilter, List.map_map]
  exact List.map_congr_left fun j _ => readJob_jobLines settings (keys p) p.environment j

omit h in
/-- The fields of a file. -/
theorem lineNodes_outline (p : Pipeline) : lineNodes (outline p) =
    [("version", node (.word "2.1")), ("jobs", node (jobsOutline p)),
      ("workflows", node (.fields (workflowLines p)))] := by
  simp [outline_eq]

omit h in
/-- The requirements that a file states. -/
theorem requirements_outline (p : Pipeline) :
    requirements (.fields (lineNodes (outline p))) = p.jobs.flatMap (requirementsOf (keys p)) :=
  requirements_workflowLines (by simp [lineNodes_outline, List.lookup_cons])

/-- The data of a file are read as the pipeline that it says. -/
theorem ofNode_outline (settings : Settings) :
    ofNode settings (.fields (lineNodes (outline p))) = said p := by
  have hjobs : readJobs settings (.fields (lineNodes (outline p))) =
      p.jobs.map (detached (keys p) p.environment) :=
    readJobs_jobsOutline settings (by simp [lineNodes_outline, List.lookup_cons])
  have hkeys := KeyTable.key_ofJobs_nodup KeyRules.sound_standard p.jobs h.names
  have hattached := @foldl_requirements (keys p) p.environment p.jobs [] hkeys
  rw [ofNode, hjobs, requirements_outline]
  exact congrArg (Pipeline.mk "Pipeline" [.on .push] .empty) hattached

/-- A pipeline that was written for CircleCI is read as the pipeline that the file says, unless
something that is written as a key is too long to be read as one. -/
theorem read_write_said (settings : Settings) : read settings (write p) =
    if fits p then .ok (said p) else .error .notYaml := by
  rw [read, write, ((part_outline h).fields (by decide)).ofPipelineFile_print]
  split
  · exact congrArg Except.ok (ofNode_outline h settings)
  · rfl

end

end Circleci
end CiPipelines

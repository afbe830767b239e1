import CiPipelines.Gitlab.Reader
import CiPipelines.Gitlab.Writer
import CiPipelines.Proofs.PipelineTexts

/-!
# What a GitLab file says

A file that was written for a pipeline is read as a pipeline again: the one that the file says.
There the steps of a job are the lines of its script, the artifacts of a job are one, jobs go by
their keys, and a job without an image runs where the settings say.  The jobs stand beside the
keywords of the file and are told from them.  A file can be read as long as the keys of its jobs
are not too long to be read as keys.  What a file says is said again when it is written once more.
-/

namespace CiPipelines
namespace Gitlab

open Outline

/-! ## What is said -/

/-- The artifacts of a job in a file: all paths under the first name. -/
def saidArtifacts : List Artifact → List Artifact
  | [] => []
  | first :: rest =>
    match (first :: rest).flatMap (·.paths) with
    | [] => []
    | paths => [⟨first.name, paths⟩]

/-- A job of a file. -/
def saidJob (settings : Settings) (keys : KeyTable) (j : Job) : Job where
  name := keys.key j.name
  runsOn := if j.runsOnImage then j.runsOn else settings.defaultRunner
  dependsOn := keys.keys j.dependsOn
  environment := j.environment
  services := j.services.map fun s => { s with ports := [] }
  steps := (script j).map .run
  artifacts := saidArtifacts j.artifacts
  cache := j.cache.filter fun c => !c.paths.isEmpty
  condition := j.condition

/-- The keys of the jobs of a pipeline. -/
def keys (p : Pipeline) : KeyTable := .ofJobs keyRules p.jobs

/-- The pipeline that a file says. -/
def said (settings : Settings) (p : Pipeline) : Pipeline where
  name := "Pipeline"
  triggers := [{ Trigger.on .push with branches := [settings.defaultBranch] }]
  environment := p.environment
  jobs := p.jobs.map (saidJob settings (keys p))

/-- A pipeline that can be written. -/
structure Writable (p : Pipeline) : Prop where
  names : (p.jobs.map (·.name)).Nodup
  texts : ∀ s ∈ p.texts, Text.Ordinary s
  fields : ∀ name ∈ p.variableNames, IsFieldName name

/-- A job that can be written. -/
structure WritableJob (j : Job) : Prop where
  texts : ∀ t ∈ j.texts, Text.Ordinary t
  fields : ∀ name ∈ j.variableNames, IsFieldName name

theorem Writable.job {p : Pipeline} (h : Writable p) {j : Job} (hj : j ∈ p.jobs) :
    WritableJob j :=
  ⟨fun t ht => h.texts t (Pipeline.mem_texts_of_job hj ht),
    fun name hname => h.fields name (Pipeline.mem_variableNames_of_job hj hname)⟩

/-! ## Scripts -/

theorem ordinaryChars_quote {s : String} (h : Text.OrdinaryChars s.toList) :
    Text.OrdinaryChars (ShellWord.quote s).toList := by
  unfold ShellWord.quote
  split
  · exact (by decide : Text.Ordinary "''").chars
  · split
    · have hquote : Text.OrdinaryChars "'".toList := (by decide : Text.Ordinary "'").chars
      rw [String.toList_append, String.toList_append]
      refine (hquote.append fun c hc => ?_).append hquote
      rw [String.toList_ofList] at hc
      obtain ⟨d, hd, hc⟩ := List.mem_flatMap.1 hc
      split at hc
      · have hmarks : (['\'', '\\', '\'', '\''].all Text.isOrdinary) = true := by decide
        exact List.all_eq_true.1 hmarks c hc
      · exact List.mem_singleton.1 hc ▸ h d hd
    · exact h

theorem ordinary_get? {vars : Vars} (h : ∀ s ∈ vars.texts, Text.Ordinary s) {name usual : String}
    (husual : Text.Ordinary usual) : Text.Ordinary ((vars.get? name).getD usual) := by
  cases hget : vars.get? name with
  | none => exact husual
  | some value =>
    exact (Vars.ordinary_of_texts h).2 (name, value) (KeyTable.mem_of_lookup hget)

/-- A command after some words is ordinary text. -/
theorem ordinary_words {words command : String} (hwords : Text.OrdinaryChars words.toList)
    {last : String} (hlast : Text.Ordinary last ∧ last.toList.getLast? = some ' ')
    (hcommand : Text.Ordinary command) : Text.Ordinary (words ++ last ++ command) := by
  refine hcommand.append_left ?_ ?_
  · rw [String.toList_append]
    exact hwords.append hlast.1.chars
  · rw [String.toList_append, List.getLast?_append, hlast.2]
    exact (by decide : some ' ' ≠ some '\n')

/-- The command that stands for an action is ordinary text. -/
theorem ordinary_actionCommand? {id line : String} {inputs : Vars} (hid : Text.Ordinary id)
    (hinputs : ∀ s ∈ inputs.texts, Text.Ordinary s) (h : line ∈ actionCommand? id inputs) :
    Text.Ordinary line := by
  -- Two languages are set up alike, in the version that the inputs say or the usual one.
  have hinstall : ∀ {install use usual : String} (name : String), Text.Ordinary install →
      Text.Ordinary use ∧ use.toList.getLast? = some ' ' → Text.Ordinary usual →
        Text.Ordinary (install ++ (inputs.get? name).getD usual ++ use ++
          (inputs.get? name).getD usual) := by
    intro install use usual name hinstall huse husual
    refine ordinary_words ?_ huse (ordinary_get? hinputs husual)
    rw [String.toList_append]
    exact hinstall.chars.append (ordinary_get? hinputs husual).chars
  unfold actionCommand? at h
  split at h
  · cases h
  split at h
  · obtain rfl := Option.some.inj h
    exact hinstall "node-version" (by decide) (by decide) (by decide)
  split at h
  · obtain rfl := Option.some.inj h
    exact hinstall "python-version" (by decide) (by decide) (by decide)
  split at h
  · obtain rfl := Option.some.inj h
    decide
  · obtain rfl := Option.some.inj h
    refine Text.ordinary_of_getLast? ?_ ?_
    · rw [String.toList_append, String.toList_append]
      exact ((by decide : Text.Ordinary "# Action: ").chars.append hid.chars).append
        (by decide : Text.Ordinary " (manual conversion needed)").chars
    · rw [String.toList_append, List.getLast?_append]
      exact (by decide : some ')' ≠ some '\n')

/-- The line that stands for a step is ordinary text. -/
theorem ordinary_scriptLine? {s : Step} {line : String} (htexts : ∀ t ∈ s.texts, Text.Ordinary t)
    (h : line ∈ scriptLine? s) : Text.Ordinary line := by
  unfold scriptLine? at h
  split at h
  · cases h
  split at h
  · rename_i command haction
    have hcommand : Text.Ordinary command :=
      htexts command (by simp [Step.texts, haction, Action.texts])
    obtain rfl := Option.some.inj h
    split
    · rename_i directory hdirectory
      refine ordinary_words ?_ (by decide) hcommand
      rw [String.toList_append]
      exact (by decide : Text.Ordinary "cd ").chars.append
        (ordinaryChars_quote (htexts directory (by simp [Step.texts, hdirectory])).chars)
    · exact hcommand
  · rename_i id inputs haction
    exact ordinary_actionCommand? (htexts id (by simp [Step.texts, haction, Action.texts]))
      (fun t ht => htexts t (by simp [Step.texts, haction, Action.texts, ht])) h

/-- A line is what stands for a step, unless there is nothing to run. -/
theorem of_mem_script {j : Job} {line : String} (h : line ∈ script j) :
    line = emptyScript ∨ ∃ s ∈ j.steps, line ∈ scriptLine? s := by
  unfold script at h
  split at h
  · exact .inl (List.mem_singleton.1 h)
  · exact .inr (List.mem_filterMap.1 h)

theorem script_ne_nil (j : Job) : script j ≠ [] := by
  unfold script
  split
  · exact List.cons_ne_nil _ _
  · assumption

theorem ordinary_script {j : Job} (htexts : ∀ t ∈ j.texts, Text.Ordinary t) :
    ∀ line ∈ script j, Text.Ordinary line := by
  intro line hline
  rcases of_mem_script hline with rfl | ⟨s, hs, hline⟩
  · decide
  · exact ordinary_scriptLine? (fun t ht => htexts t (Job.mem_texts_of_step hs ht)) hline

/-! ## Parts of a job -/

section

variable {levels : Nat}

theorem items_serviceOutline {s : Service} (htexts : ∀ t ∈ s.texts, Text.Ordinary t)
    (hfields : ∀ name ∈ s.env.names, IsFieldName name) :
    Items (levels + 2) true [serviceOutline s] := by
  obtain ⟨hname, himage, -, henv⟩ := Service.forall_texts.1 htexts
  exact .fields (((Part.formatField (by decide) (.text himage)).append
    (.formatField (by decide) (.text hname))).append (.namedVarsField (by decide) henv hfields))
      (by decide : ["name", "alias", "variables"].Nodup) (List.cons_ne_nil _ _)

/-- Variables are read back. -/
@[simp] theorem varsNode?_readVars (vars : Vars) :
    ((varsNode? vars).map readVars).getD .empty = vars := by
  unfold varsNode?
  split
  · rename_i hempty
    exact Vars.ext_entries (List.isEmpty_iff.1 hempty).symm
  · exact ofList_scalars vars fun _ => rfl

/-- A service is read back, but for its ports. -/
theorem readService?_serviceOutline (s : Service) :
    readService? (node (serviceOutline s)) = some { s with ports := [] } := by
  simp [readService?, imageName?, serviceOutline, Node.textAt?, readVarsAt, List.lookup_cons]

/-- The rule of a condition. -/
def ruleLines (condition : Option String) : List (Line Outline) :=
  condition.toList.map fun c => .field "rules" (.list [.fields [.field "if" (.value c)]])

theorem part_ruleLines {condition : Option String} (h : ∀ c ∈ condition, Text.Ordinary c) :
    Part (levels + 2) ["rules"] true (ruleLines condition) := by
  cases condition with
  | none => exact .absent
  | some c =>
    have hif : Part levels ["if"] true [.field "if" (.value c)] :=
      .formatField (by decide) (.value (h c rfl))
    exact .formatField (by decide) (Items.fields hif (by decide) (List.cons_ne_nil _ _)).list

@[simp] theorem lookup_ruleLines {key : String} (condition : Option String) (h : key ≠ "rules") :
    (lineNodes (ruleLines condition)).lookup key = none := by
  cases condition <;> simp [ruleLines, lookup_single, h]

/-- A condition is read back. -/
@[simp] theorem read_ruleLines (condition : Option String) :
    ((((lineNodes (ruleLines condition)).lookup "rules").map Node.items).getD []).findSome?
      (fun rule => rule.textAt? "if") = condition := by
  cases condition with
  | none => rfl
  | some c => simp [ruleLines, Node.textAt?]

theorem part_artifactLines {artifacts : List Artifact}
    (h : ∀ a ∈ artifacts, ∀ t ∈ a.texts, Text.Ordinary t) :
    Part (levels + 2) ["artifacts"] true (artifactLines artifacts) := by
  cases artifacts with
  | nil => exact .absent
  | cons first rest =>
    have hname : Text.Ordinary first.name :=
      h first (List.mem_cons_self ..) _ (List.mem_cons_self ..)
    have hpaths : ∀ s ∈ (first :: rest).flatMap (·.paths), Text.Ordinary s := by
      intro s hs
      obtain ⟨a, ha, hs⟩ := List.mem_flatMap.1 hs
      exact h a ha s (List.mem_cons_of_mem _ hs)
    exact .formatField (by decide) (((Part.formatField (by decide) (.text hname)).append
      (.listField (by decide) hpaths)).fields (by decide : ["name", "paths"].Nodup))

@[simp] theorem lookup_artifactLines {key : String} (artifacts : List Artifact)
    (h : key ≠ "artifacts") : (lineNodes (artifactLines artifacts)).lookup key = none := by
  cases artifacts <;> simp [artifactLines, lookup_single, h]

/-- Artifacts are read as one. -/
theorem readArtifacts_artifactLines (job : String) (artifacts : List Artifact) :
    readArtifacts job ((lineNodes (artifactLines artifacts)).lookup "artifacts") =
      saidArtifacts artifacts := by
  cases artifacts with
  | nil => rfl
  | cons first rest =>
    have hpaths : ∀ paths : List String, readArtifacts job (some (node (.fields
        (.field "name" (.text first.name) :: listField "paths" paths)))) =
          match paths with
          | [] => []
          | paths => [⟨first.name, paths⟩] := by
      intro paths
      cases paths <;> simp [readArtifacts, List.lookup_cons, Node.textsAt, Node.textAt?]
    exact hpaths _

/-- A cache as an item of a list. -/
def cacheOutline (c : Cache) : Outline :=
  .fields (.field "key" (.text c.key) :: listField "paths" c.paths)

theorem items_cacheOutline {c : Cache} (h : ∀ t ∈ c.texts, Text.Ordinary t) :
    Items (levels + 2) true [cacheOutline c] := by
  refine .fields ((Part.formatField (by decide) (.text ?_)).append
    (.listField (by decide) fun t ht => ?_)) (by decide : ["key", "paths"].Nodup)
      (List.cons_ne_nil _ _)
  · exact h c.key (List.mem_cons_self ..)
  · exact h t (List.mem_cons_of_mem _ ht)

/-- A cache is read back if it has paths. -/
theorem readCache?_cacheOutline (c : Cache) :
    readCache? (node (cacheOutline c)) = Option.guard (fun c => !c.paths.isEmpty) c := by
  obtain ⟨key, paths⟩ := c
  cases paths <;>
    simp [readCache?, cacheOutline, List.lookup_cons, Node.textsAt, Node.textAt?, Option.guard]

theorem part_cacheLines {caches : List Cache} (h : ∀ c ∈ caches, ∀ t ∈ c.texts, Text.Ordinary t) :
    Part (levels + 3) ["cache"] true (cacheLines caches) :=
  .choice (fun _ => .absent) fun _ =>
    .formatField (by decide) (Items.shortMap fun c hc => items_cacheOutline (h c hc)).list

@[simp] theorem lookup_cacheLines {key : String} (caches : List Cache) (h : key ≠ "cache") :
    (lineNodes (cacheLines caches)).lookup key = none := by
  cases caches <;> simp [cacheLines, lookup_single, h]

/-- Caches are read back if they have paths. -/
theorem readCaches_cacheLines (caches : List Cache) :
    readCaches ((lineNodes (cacheLines caches)).lookup "cache") =
      caches.filter fun c => !c.paths.isEmpty := by
  cases caches with
  | nil => rfl
  | cons c caches =>
    have hnode : node (.list ((c :: caches).map cacheOutline)) =
        .list ((c :: caches).map fun c => node (cacheOutline c)) := by
      rw [node_list (by simp), List.map_map]
      rfl
    have hlookup : (lineNodes (cacheLines (c :: caches))).lookup "cache" =
        some (node (.list ((c :: caches).map cacheOutline))) := by
      have hlines : cacheLines (c :: caches) =
          [.field "cache" (.list ((c :: caches).map cacheOutline))] := rfl
      rw [hlines, lineNodes_field]
      rfl
    have hread : readCache? ∘ (fun c => node (cacheOutline c)) =
        Option.guard fun c => !c.paths.isEmpty := funext readCache?_cacheOutline
    rw [hlookup, hnode, readCaches, List.filterMap_map, hread, List.filterMap_eq_filter]

end

/-! ## Jobs -/

/-- The fields of a job. -/
def jobLines (keys : KeyTable) (j : Job) : List (Line Outline) :=
  [.field "stage" (.text (keys.key j.name))]
    ++ (if j.runsOnImage then [.field "image" (.text j.runsOn)] else [])
    ++ listField "needs" (keys.keys j.dependsOn) ++ ruleLines j.condition
    ++ varsField "variables" j.environment
    ++ (if j.services.isEmpty then []
        else [.field "services" (.list (j.services.map serviceOutline))])
    ++ [.field "script" (.list ((script j).map .value))]
    ++ artifactLines j.artifacts ++ cacheLines j.cache

/-- The fields that a job can have. -/
def jobFields : List String :=
  ["stage", "image", "needs", "rules", "variables", "services", "script", "artifacts", "cache"]

theorem part_jobLines {levels : Nat} {keys : KeyTable} {j : Job} (h : WritableJob j)
    (hkeys : ∀ name, IsKey (keys.key name)) :
    Part (levels + 3) jobFields true (jobLines keys j) := by
  obtain ⟨-, hrunner, -, henv, -, -, hartifacts, hcaches, hcondition⟩ := Job.forall_texts.1 h.texts
  have hneeds : ∀ t ∈ keys.keys j.dependsOn, Text.Ordinary t := by
    intro t ht
    obtain ⟨name, -, rfl⟩ := List.mem_map.1 ht
    exact (hkeys name).ordinary
  have hstage : Part (levels + 3) ["stage"] true [.field "stage" (.text (keys.key j.name))] :=
    .formatField (by decide) (.text (hkeys j.name).ordinary)
  have himage : Part (levels + 3) ["image"] true
      (if j.runsOnImage then [.field "image" (.text j.runsOn)] else []) :=
    .choice (fun _ => .formatField (by decide) (.text hrunner)) fun _ => .absent
  have hvariables : Part (levels + 3) ["variables"] true (varsField "variables" j.environment) :=
    .namedVarsField (by decide) henv fun name hname => h.fields name (by
      simp [Job.variableNames, hname])
  have hservices : Part (levels + 3) ["services"] true (if j.services.isEmpty then []
      else [.field "services" (.list (j.services.map serviceOutline))]) := by
    refine .choice (fun _ => .absent) fun _ => .formatField (by decide)
      (Items.shortMap fun s hs => items_serviceOutline (fun t ht => ?_) fun name hname => ?_).list
    · exact h.texts t (Job.mem_texts_of_service hs ht)
    · exact h.fields name (Job.mem_variableNames_of_service hs hname)
  have hscript : Part (levels + 3) ["script"] true
      [.field "script" (.list ((script j).map .value))] :=
    .formatField (by decide) (Items.values (ordinary_script h.texts)).list
  exact ((((((((hstage.append himage).append (.listField (by decide) hneeds)).append
    (part_ruleLines hcondition)).append hvariables).append hservices).append hscript).append
    (part_artifactLines hartifacts)).append (part_cacheLines hcaches))

theorem isFields_jobLines (keys : KeyTable) (j : Job) :
    (node (.fields (jobLines keys j))).isFields = true :=
  isFields_node_fields (by simp [jobLines, lineKeys])

/-- What is written for a job is read as the job that a file says, where the file has no
defaults. -/
theorem readJob_jobLines (settings : Settings) (keys : KeyTable) (j : Job) {defaults : Node}
    (himage : defaults.get? "image" = none) (hbefore : defaults.get? "before_script" = none) :
    readJob settings defaults (keys.key j.name) (node (.fields (jobLines keys j))) =
      saidJob settings keys j := by
  -- Field by field: what the reader finds under a key is what the writer laid there.
  have hrunner : (((node (.fields (jobLines keys j))).get? "image" <|>
      defaults.get? "image").bind imageName?).getD settings.defaultRunner =
        if j.runsOnImage then j.runsOn else settings.defaultRunner := by
    have hget : (node (.fields (jobLines keys j))).get? "image" =
        if j.runsOnImage then some (.scalar j.runsOn) else none := by
      simp [jobLines, List.lookup_append, List.lookup_cons]
    rw [hget, himage]
    split <;> rfl
  have hneeds : ((node (.fields (jobLines keys j))).itemsAt "needs").filterMap
      (fun need => need.text? <|> need.textAt? "job") = keys.keys j.dependsOn := by
    simp [jobLines, Node.itemsAt, List.lookup_append, List.lookup_cons, List.filterMap_map,
      Function.comp_def]
  have henv : readVarsAt (node (.fields (jobLines keys j))) "variables" = j.environment := by
    simp [jobLines, readVarsAt, List.lookup_append, List.lookup_cons]
  have hservices : ((node (.fields (jobLines keys j))).itemsAt "services").filterMap
      readService? = j.services.map fun s => { s with ports := [] } := by
    have hitems : (node (.fields (jobLines keys j))).itemsAt "services" =
        j.services.map fun s => node (serviceOutline s) := by
      cases hempty : j.services.isEmpty with
      | true =>
        simp [jobLines, Node.itemsAt, List.lookup_append, List.lookup_cons,
          List.isEmpty_iff.1 hempty]
      | false =>
        simp [jobLines, Node.itemsAt, List.lookup_append, List.lookup_cons, hempty]
    have hread : readService? ∘ (fun s => node (serviceOutline s)) =
        fun s => some { s with ports := [] } := funext readService?_serviceOutline
    rw [hitems, List.filterMap_map, hread, List.filterMap_eq_map']
  have hnoBefore : (node (.fields (jobLines keys j))).get? "before_script" = none := by
    simp [jobLines, List.lookup_append, List.lookup_cons]
  have hscript : (node (.fields (jobLines keys j))).get? "script" =
      some (.list ((script j).map .scalar)) := by
    simp [jobLines, List.lookup_append, List.lookup_cons, node_values (script_ne_nil j)]
  have hlines : scriptLines (.list ((script j).map .scalar)) = script j := by
    rw [scriptLines, List.flatMap_map]
    exact List.flatMap_singleton' (script j)
  have hartifacts : readArtifacts (keys.key j.name) ((node (.fields (jobLines keys j))).get?
      "artifacts") = saidArtifacts j.artifacts := by
    have hget : (node (.fields (jobLines keys j))).get? "artifacts" =
        (lineNodes (artifactLines j.artifacts)).lookup "artifacts" := by
      simp [jobLines, List.lookup_append, List.lookup_cons]
    rw [hget, readArtifacts_artifactLines]
  have hcache : readCaches ((node (.fields (jobLines keys j))).get? "cache") =
      j.cache.filter fun c => !c.paths.isEmpty := by
    have hget : (node (.fields (jobLines keys j))).get? "cache" =
        (lineNodes (cacheLines j.cache)).lookup "cache" := by
      simp [jobLines, List.lookup_append, List.lookup_cons]
    rw [hget, readCaches_cacheLines]
  have hrules : ((node (.fields (jobLines keys j))).itemsAt "rules").findSome?
      (fun rule => rule.textAt? "if") = j.condition := by
    have hitems : (node (.fields (jobLines keys j))).itemsAt "rules" =
        (((lineNodes (ruleLines j.condition)).lookup "rules").map Node.items).getD [] := by
      simp [jobLines, Node.itemsAt, List.lookup_append, List.lookup_cons]
    rw [hitems, read_ruleLines]
  have hsteps : (((((node (.fields (jobLines keys j))).get? "before_script" <|>
      defaults.get? "before_script").toList ++ ((node (.fields
        (jobLines keys j))).get? "script").toList).flatMap scriptLines).map Step.run) =
          (script j).map .run := by
    rw [hnoBefore, hbefore, hscript]
    simp [hlines]
  simp only [readJob, hrunner, hneeds, henv, hservices, hsteps, hartifacts, hcache, hrules, saidJob]

/-! ## Files -/

theorem sound_keyRules : keyRules.Sound :=
  ⟨KeyRules.isKey_cleanName, by decide, by decide⟩

theorem isKey_keys (p : Pipeline) (name : String) : IsKey ((keys p).key name) :=
  (KeyTable.key_ofJobs sound_keyRules p.jobs name).1

/-- No job is written under a keyword. -/
theorem keys_not_keyword (p : Pipeline) (name : String) : (keys p).key name ∉ keywords :=
  (KeyTable.key_ofJobs sound_keyRules p.jobs name).2

/-- The lines of a file. -/
theorem outline_eq (p : Pipeline) : outline p =
    varsParagraph "variables" p.environment ++ listField "stages" (p.jobs.map fun j =>
      (keys p).key j.name) ++ p.jobs.flatMap fun j => [.empty, .field ((keys p).key j.name)
        (.fields (jobLines (keys p) j))] :=
  rfl

/-- The fields that a file can have besides its jobs.  Both are keywords. -/
def rootFields : List String := ["variables", "stages"]

/-- A file has fixed fields besides its jobs, and only the keys of the jobs can be too long. -/
theorem part_outline {p : Pipeline} (h : Writable p) :
    Part 127 (rootFields ++ p.jobs.map fun j => (keys p).key j.name)
      (p.jobs.all fun j => keyFits ((keys p).key j.name)) (outline p) := by
  obtain ⟨-, -, henv, -⟩ := Pipeline.forall_texts.1 h.texts
  have hstages : ∀ s ∈ p.jobs.map fun j => (keys p).key j.name, Text.Ordinary s := by
    intro s hs
    obtain ⟨j, -, rfl⟩ := List.mem_map.1 hs
    exact (isKey_keys p j.name).ordinary
  have hjob : ∀ j ∈ p.jobs, Part 127 [(keys p).key j.name] (keyFits ((keys p).key j.name))
      [.empty, .field ((keys p).key j.name) (.fields (jobLines (keys p) j))] := by
    intro j hj
    have hkey : IsKey ((keys p).key j.name) := isKey_keys p j.name
    have hbody : Written 127 true (.fields (jobLines (keys p) j)) :=
      (part_jobLines (h.job hj) (isKey_keys p)).fields (by decide)
    exact ((Part.field hkey.ordinary.chars hkey.ne_merge hbody).of_eq
      (Bool.and_true _)).behindEmpty
  have hvariables : Part 127 ["variables"] true (varsParagraph "variables" p.environment) :=
    .namedVarsParagraph (by decide) henv fun name hname => h.fields name (by
      simp [Pipeline.variableNames, hname])
  rw [outline_eq]
  exact ((hvariables.append (.listField (by decide) hstages)).append (.flatMap hjob)).of_eq
    (Bool.true_and _)

/-- No job stands under a field of the file. -/
theorem nodup_rootFields {p : Pipeline} (h : Writable p) :
    (rootFields ++ p.jobs.map fun j => (keys p).key j.name).Nodup := by
  refine List.nodup_append.2 ⟨by decide, KeyTable.key_ofJobs_nodup sound_keyRules p.jobs h.names,
    fun a ha b hb heq => ?_⟩
  have hkeyword : a ∈ keywords := (by decide : ∀ key ∈ rootFields, key ∈ keywords) a ha
  obtain ⟨j, -, rfl⟩ := List.mem_map.1 hb
  exact keys_not_keyword p j.name (heq ▸ hkeyword)

/-- No job of a file answers for a keyword. -/
theorem lookup_keyword (p : Pipeline) {w : String} (hw : w ∈ keywords) {f : Job → Node} :
    (p.jobs.map fun j => ((keys p).key j.name, f j)).lookup w = none := by
  rw [KeyTable.lookup_eq_none, List.map_map]
  intro hmem
  obtain ⟨j, -, rfl⟩ := List.mem_map.1 hmem
  exact keys_not_keyword p j.name hw

theorem namesJob_key (p : Pipeline) (name : String) : namesJob ((keys p).key name) = true := by
  have hkeyword : keywords.contains ((keys p).key name) = false := by
    simpa using keys_not_keyword p name
  have hdot := (isKey_keys p name).head?_ne_dot
  simp only [namesJob, hkeyword, Bool.not_false, Bool.true_and]
  exact bne_iff_ne.2 hdot

/-- What a file holds: the variables, the stages, and each job under its key. -/
theorem lineNodes_outline (p : Pipeline) :
    lineNodes (outline p) = lineNodes (varsField "variables" p.environment)
      ++ lineNodes (listField "stages" (p.jobs.map fun j => (keys p).key j.name))
      ++ p.jobs.map fun j => ((keys p).key j.name, node (.fields (jobLines (keys p) j))) := by
  rw [outline_eq]
  simp [lineNodes_flatMap]

/-- Other keywords do not occur. -/
theorem get?_keyword (p : Pipeline) {w : String} (hw : w ∈ keywords) (hvariables : w ≠ "variables")
    (hstages : w ≠ "stages") : (Node.fields (lineNodes (outline p))).get? w = none := by
  simp [lineNodes_outline, List.lookup_append, hvariables, hstages, lookup_keyword p hw]

/-- The variables and the stages are no jobs. -/
theorem namesJob_global (p : Pipeline) : ∀ entry ∈ lineNodes (varsField "variables" p.environment)
    ++ lineNodes (listField "stages" (p.jobs.map fun j => (keys p).key j.name)),
    namesJob entry.1 = false := by
  have hvariables : ∀ entry ∈ lineNodes (varsField "variables" p.environment),
      entry.1 = "variables" := by
    unfold varsField
    split <;> simp
  have hstages : ∀ entry ∈ lineNodes (listField "stages" (p.jobs.map fun j => (keys p).key j.name)),
      entry.1 = "stages" := by
    unfold listField
    split <;> simp
  intro entry hentry
  rcases List.mem_append.1 hentry with hentry | hentry
  · rw [hvariables entry hentry]
    decide
  · rw [hstages entry hentry]
    decide

/-- The jobs of a file are what stands under the keys of jobs. -/
theorem filter_lineNodes_outline (p : Pipeline) :
    ((lineNodes (outline p)).filter fun (key, body) => namesJob key && body.isFields) =
      p.jobs.map fun j => ((keys p).key j.name, node (.fields (jobLines (keys p) j))) := by
  rw [lineNodes_outline, List.filter_append]
  have hglobal : ∀ entry ∈ lineNodes (varsField "variables" p.environment)
      ++ lineNodes (listField "stages" (p.jobs.map fun j => (keys p).key j.name)),
      ¬ (namesJob entry.1 && entry.2.isFields) = true := by
    intro entry hentry
    simp [namesJob_global p entry hentry]
  rw [List.filter_eq_nil_iff.2 hglobal, List.nil_append]
  refine List.filter_eq_self.2 fun entry hentry => ?_
  obtain ⟨j, -, rfl⟩ := List.mem_map.1 hentry
  rw [Bool.and_eq_true]
  exact ⟨namesJob_key p j.name, isFields_jobLines ..⟩

/-- The data of a file are read as the pipeline that it says. -/
theorem ofNode_outline (settings : Settings) (p : Pipeline) :
    ofNode settings (.fields (lineNodes (outline p))) = said settings p := by
  have hdefaults : defaults (.fields (lineNodes (outline p))) =
      .fields (lineNodes (outline p)) := by
    rw [defaults, get?_keyword p (by decide) (by decide) (by decide)]
  have henv : readVarsAt (.fields (lineNodes (outline p))) "variables" = p.environment := by
    simp [lineNodes_outline, readVarsAt, List.lookup_append,
      lookup_keyword p (by decide : "variables" ∈ keywords)]
  have hjobs : readJobs settings (.fields (lineNodes (outline p))) = (said settings p).jobs := by
    rw [readJobs, hdefaults, Node.entries, filter_lineNodes_outline, List.map_map]
    exact List.map_congr_left fun j _ => readJob_jobLines settings (keys p) j
      (get?_keyword p (by decide) (by decide) (by decide))
      (get?_keyword p (by decide) (by decide) (by decide))
  rw [ofNode, henv, hjobs]
  rfl

/-- A pipeline that was written for GitLab is read as the pipeline that the file says, unless the
key of a job is too long to be read as a key. -/
theorem read_write_said {p : Pipeline} (h : Writable p) (settings : Settings) :
    read settings (write p) =
      if p.jobs.all fun j => keyFits ((keys p).key j.name) then .ok (said settings p)
      else .error .notYaml := by
  rw [read, write, ((part_outline h).fields (nodup_rootFields h)).ofPipelineFile_print]
  split
  · exact congrArg Except.ok (ofNode_outline settings p)
  · rfl

/-! ## Saying it again -/

/-- The commands of a job of nothing but commands are its script. -/
theorem script_of_commands {j : Job} {commands : List String} (hne : commands ≠ [])
    (hsteps : j.steps = commands.map .run) (hblank : ∀ c ∈ commands, Text.isBlank c.toList = false) :
    script j = commands := by
  have hline : ∀ c ∈ commands, scriptLine? (.run c) = some c := by
    intro c hc
    have hvoid : ¬(Step.run c).isVoid = true := by
      have hblank := hblank c hc
      simpa [Step.run, Step.ofAction, Step.isVoid] using hblank
    rw [scriptLine?, if_neg hvoid]
    rfl
  rw [script, hsteps, filterMap_written hline]
  split
  · exact absurd rfl hne
  · rfl

theorem isBlank_append (a b : String) :
    Text.isBlank (a ++ b).toList = (Text.isBlank a.toList && Text.isBlank b.toList) := by
  rw [String.toList_append, Text.isBlank, List.all_append]
  rfl

/-- The command that stands for an action is not blank. -/
theorem isBlank_actionCommand? {id line : String} {inputs : Vars}
    (h : line ∈ actionCommand? id inputs) : Text.isBlank line.toList = false := by
  have hword : ∀ {word rest : String}, Text.isBlank word.toList = false →
      Text.isBlank (word ++ rest).toList = false := by
    intro word rest hword
    rw [isBlank_append, hword, Bool.false_and]
  unfold actionCommand? at h
  split at h
  · cases h
  split at h
  · obtain rfl := Option.some.inj h
    exact hword (hword (hword (by decide)))
  split at h
  · obtain rfl := Option.some.inj h
    exact hword (hword (hword (by decide)))
  split at h
  · obtain rfl := Option.some.inj h
    decide
  · obtain rfl := Option.some.inj h
    exact hword (hword (by decide))

/-- No line of a script is blank. -/
theorem isBlank_of_mem_script {j : Job} {line : String} (h : line ∈ script j) :
    Text.isBlank line.toList = false := by
  rcases of_mem_script h with rfl | ⟨s, -, hline⟩
  · decide
  · unfold scriptLine? at hline
    split at hline
    · cases hline
    rename_i hvoid
    split at hline
    · rename_i command haction
      have hcommand : Text.isBlank command.toList = false := by
        simpa [Step.isVoid, haction] using hvoid
      obtain rfl := Option.some.inj hline
      split
      · rw [isBlank_append, hcommand, Bool.and_false]
      · exact hcommand
    · exact isBlank_actionCommand? hline

/-- A script is said again as it is. -/
theorem script_saidJob (settings : Settings) (keys : KeyTable) (j : Job) :
    script (saidJob settings keys j) = script j :=
  script_of_commands (script_ne_nil j) rfl fun _ => isBlank_of_mem_script

theorem saidArtifacts_saidArtifacts (artifacts : List Artifact) :
    saidArtifacts (saidArtifacts artifacts) = saidArtifacts artifacts := by
  cases artifacts with
  | nil => rfl
  | cons first rest =>
    rw [saidArtifacts]
    cases (first :: rest).flatMap (·.paths) with
    | nil => rfl
    | cons path paths => simp [saidArtifacts]

theorem saidArtifacts_texts {artifacts : List Artifact}
    (h : ∀ a ∈ artifacts, ∀ t ∈ a.texts, Text.Ordinary t) :
    ∀ a ∈ saidArtifacts artifacts, ∀ t ∈ a.texts, Text.Ordinary t := by
  cases artifacts with
  | nil => exact h
  | cons first rest =>
    have hname : Text.Ordinary first.name :=
      h first (List.mem_cons_self ..) _ (List.mem_cons_self ..)
    have hpaths : ∀ t ∈ (first :: rest).flatMap (·.paths), Text.Ordinary t := by
      intro t ht
      obtain ⟨a, ha, ht⟩ := List.mem_flatMap.1 ht
      exact h a ha t (List.mem_cons_of_mem _ ht)
    rw [saidArtifacts]
    cases hall : (first :: rest).flatMap (·.paths) with
    | nil => exact fun a ha => absurd ha List.not_mem_nil
    | cons path paths =>
      intro a ha
      obtain rfl := List.mem_singleton.1 ha
      exact List.forall_mem_cons.2 ⟨hname, hall ▸ hpaths⟩

section

variable {settings : Settings} (hrunner : Text.Ordinary settings.defaultRunner)
  (hbranch : Text.Ordinary settings.defaultBranch)

include hrunner

/-- A job of a file can be written. -/
theorem WritableJob.said {j : Job} (h : WritableJob j) {keys : KeyTable}
    (hkeys : ∀ name, IsKey (keys.key name)) : WritableJob (saidJob settings keys j) := by
  obtain ⟨-, hrunsOn, -, henv, hservices, -, hartifacts, hcache, hcondition⟩ :=
    Job.forall_texts.1 h.texts
  obtain ⟨henvNames, hserviceNames, -⟩ := Job.forall_variableNames.1 h.fields
  refine ⟨Job.forall_texts.2 ⟨(hkeys j.name).ordinary, ?_, fun t ht => ?_, henv, fun s hs => ?_,
    fun s hs => ?_, saidArtifacts_texts hartifacts, fun c hc => hcache c (List.mem_filter.1 hc).1,
    hcondition⟩, Job.forall_variableNames.2 ⟨henvNames, fun s hs => ?_, fun s hs => ?_⟩⟩
  · show Text.Ordinary (if j.runsOnImage then j.runsOn else settings.defaultRunner)
    split
    · exact hrunsOn
    · exact hrunner
  · obtain ⟨name, -, rfl⟩ := List.mem_map.1 ht
    exact (hkeys name).ordinary
  · obtain ⟨service, hservice, rfl⟩ := List.mem_map.1 hs
    have htexts := hservices service hservice
    simp only [Service.texts, List.forall_mem_append, List.forall_mem_cons] at htexts ⊢
    exact ⟨⟨htexts.1.1, htexts.1.2.1, List.forall_mem_nil _⟩, htexts.2⟩
  · obtain ⟨line, hline, rfl⟩ := List.mem_map.1 hs
    intro t ht
    obtain rfl : t = line := by
      simpa [Step.texts, Step.run, Step.ofAction, Action.texts, Vars.empty, Vars.texts] using ht
    exact ordinary_script h.texts t hline
  · obtain ⟨service, hservice, rfl⟩ := List.mem_map.1 hs
    exact hserviceNames service hservice
  · obtain ⟨line, -, rfl⟩ := List.mem_map.1 hs
    exact fun t ht => absurd ht List.not_mem_nil

include hbranch

/-- What a file says can be written, if the words of the settings are ordinary text. -/
theorem Writable.said {p : Pipeline} (h : Writable p) : Writable (said settings p) := by
  obtain ⟨-, -, henv, -⟩ := Pipeline.forall_texts.1 h.texts
  obtain ⟨hnames, -⟩ := Pipeline.forall_variableNames.1 h.fields
  have hjob : ∀ j ∈ (Gitlab.said settings p).jobs, WritableJob j := by
    intro j hj
    obtain ⟨own, hown, rfl⟩ := List.mem_map.1 hj
    exact (h.job hown).said hrunner (isKey_keys p)
  have hname : Text.Ordinary "Pipeline" := by decide
  refine ⟨?_, Pipeline.forall_texts.2 ⟨hname, fun t ht => ?_, henv, fun j hj =>
    (hjob j hj).texts⟩, Pipeline.forall_variableNames.2 ⟨hnames, fun j hj => (hjob j hj).fields⟩⟩
  · have hkeys := KeyTable.key_ofJobs_nodup sound_keyRules p.jobs h.names
    rwa [Gitlab.said, List.map_map]
  · obtain rfl := List.mem_singleton.1 ht
    intro s hs
    obtain rfl : s = settings.defaultBranch := by simpa [Trigger.texts, Trigger.on] using hs
    exact hbranch

end

theorem map_name_said (settings : Settings) (p : Pipeline) :
    (said settings p).jobs.map (·.name) = p.jobs.map fun j => (keys p).key j.name := by
  rw [said, List.map_map]
  rfl

/-- Jobs that go by their keys keep them. -/
theorem key_said (settings : Settings) (p : Pipeline) (name : String) :
    (keys (said settings p)).key ((keys p).key name) = (keys p).key name :=
  KeyTable.key_key sound_keyRules (fun _ => KeyRules.cleanName_of_isKey)
    (map_name_said settings p) name

/-- What a file says is said again when it is written once more. -/
theorem said_said (settings : Settings) (p : Pipeline) :
    said settings (said settings p) = said settings p := by
  have hneeds : ∀ names, (keys (said settings p)).keys ((keys p).keys names) =
      (keys p).keys names :=
    KeyTable.keys_keys sound_keyRules (fun _ => KeyRules.cleanName_of_isKey)
      (map_name_said settings p)
  have hjob : ∀ j, saidJob settings (keys (said settings p)) (saidJob settings (keys p) j) =
      saidJob settings (keys p) j := by
    intro j
    have hrunner : (if (saidJob settings (keys p) j).runsOnImage
        then (saidJob settings (keys p) j).runsOn else settings.defaultRunner) =
          (saidJob settings (keys p) j).runsOn := by
      have hrunsOn : (saidJob settings (keys p) j).runsOn =
          if j.runsOnImage then j.runsOn else settings.defaultRunner := rfl
      split
      · rfl
      · rename_i hlabel
        rw [hrunsOn]
        split
        · rename_i himage
          rw [Job.runsOnImage, hrunsOn, if_pos himage] at hlabel
          exact absurd himage hlabel
        · rfl
    rw [saidJob, hrunner, script_saidJob]
    simp [saidJob, key_said, hneeds, saidArtifacts_saidArtifacts]
  rw [said, said, List.map_map]
  exact congrArg _ (List.map_congr_left fun j _ => hjob j)

end Gitlab
end CiPipelines

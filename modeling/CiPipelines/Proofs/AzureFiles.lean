import CiPipelines.Azure.Writer
import CiPipelines.Proofs.PipelineTexts
import Mathlib.Data.List.Forall2

/-!
# What an Azure file says

Azure files are written and never read as pipelines, so what a file says is said of its data.  A
pipeline of ordinary texts is written as a document that can be read.  It has a stage for each job,
in order, with what the job needs, its condition, and one job of the same key.  That job has the
runner if it is an image, the variables, and a step for each command that is not blank.  Keys of
jobs are written as texts here, so that they may be of any length.
-/

namespace CiPipelines
namespace Azure

open Outline

/-! ## What is said -/

/-- The script of a command is the command, or the command with a line feed where it has none. -/
def IsScript (command script : String) : Prop :=
  script = command ∨ script = command ++ "\n" ∧ command.toList.getLast? ≠ some '\n'

/-- The data of a step that runs a command. -/
structure IsStep (s : Step) (n : Node) : Prop where
  script : ∃ command script, s.command? = some command ∧
    n.get? "script" = some (.scalar script) ∧ IsScript command script
  name : n.get? "displayName" = s.name.map .scalar
  directory : n.get? "workingDirectory" = s.directory.map .scalar
  condition : n.get? "condition" = s.condition.map .scalar
  env : n.get? "env" = varsNode? s.env

/-- The data of the step that checks out the repository. -/
def checkoutNode : Node := .fields [("checkout", .scalar "self")]

/-- The data of the job of a stage. -/
structure IsJob (key : String) (j : Job) (n : Node) : Prop where
  name : n.get? "job" = some (.scalar key)
  container : n.get? "container" = if j.runsOnImage then some (.scalar j.runsOn) else none
  environment : n.get? "variables" = varsNode? j.environment
  steps : ∃ steps, n.get? "steps" = some (.list (checkoutNode :: steps)) ∧
    List.Forall₂ IsStep (j.steps.filter fun s => s.fullCommand?.isSome) steps

/-- The data of the stage of a job. -/
structure IsStage (keys : KeyTable) (j : Job) (n : Node) : Prop where
  name : n.get? "stage" = some (.scalar (keys.key j.name))
  dependencies : n.get? "dependsOn" = some (.list ((keys.keys j.dependsOn).map .scalar))
  condition : n.get? "condition" = j.condition.map .scalar
  job : ∃ job, n.get? "jobs" = some (.list [job]) ∧ IsJob (keys.key j.name) j job

/-- The keys of the jobs of a pipeline. -/
def keys (p : Pipeline) : KeyTable := .ofJobs keyRules p.jobs

/-- A pipeline that can be written. -/
structure Writable (p : Pipeline) : Prop where
  texts : ∀ s ∈ p.texts, Text.Ordinary s
  fields : ∀ name ∈ p.variableNames, IsFieldName name

/-- A job that can be written. -/
structure WritableJob (j : Job) : Prop where
  texts : ∀ s ∈ j.texts, Text.Ordinary s
  fields : ∀ name ∈ j.variableNames, IsFieldName name

theorem Writable.job {p : Pipeline} (h : Writable p) {j : Job} (hj : j ∈ p.jobs) :
    WritableJob j :=
  ⟨fun s hs => h.texts s (Pipeline.mem_texts_of_job hj hs),
    fun name hname => h.fields name (Pipeline.mem_variableNames_of_job hj hname)⟩

/-! ## Words -/

theorem isWord_none : IsWord "none" :=
  ⟨(by decide : Text.Ordinary "none").chars, .inr (by decide), by decide +kernel⟩

theorem isWord_true : IsWord "true" :=
  ⟨(by decide : Text.Ordinary "true").chars, .inr (by decide), by decide +kernel⟩

theorem isWord_brackets : IsWord "[]" :=
  ⟨(by decide : Text.Ordinary "[]").chars, .inl (by decide), by decide⟩

/-- Characters of keys go on with a plain text, also behind a blank. -/
theorem plainTail_of_isKeyChar {c : Char} {text : List Char} (spaced : Bool)
    (h : ∀ d ∈ c :: text, isKeyChar d = true) : Yaml.plainTail spaced (c :: text) = true := by
  refine Yaml.plainTail_of_forall spaced fun d hd => ?_
  have hkey := isKeyChar_iff.1 (h d hd)
  simp only [Yaml.isBlank, Yaml.isBreak, Text.beq_eq_toNat_beq]
  simp
  omega

/-- A text that starts with a capital letter is no number that cannot be read. -/
theorem isSome_ofPlain?_of_capital {s : String} {rest : List Char} (h : s.toList = 'S' :: rest) :
    (Yaml.Value.ofPlain? s).isSome = true := by
  have hinteger : Yaml.Value.integer? s = none := by
    have hdigits : Yaml.integer? ('S' :: rest) = none := rfl
    rw [Yaml.Value.integer?, h, hdigits]
  unfold Yaml.Value.ofPlain?
  rw [hinteger]
  split
  · rfl
  split
  · rfl
  dsimp only
  split
  · rfl
  split
  · rfl
  · rfl

theorem isKeyChar_toString (n : Nat) : ∀ c ∈ (toString n).toList, isKeyChar c = true := by
  intro c hc
  rw [Nat.toString_eq_repr, Nat.toList_repr] at hc
  have hdigit := Nat.isDigit_of_mem_toDigits (by decide) (by decide) hc
  simp [isKeyChar, hdigit]

theorem isWord_schedule (n : Nat) : IsWord ("Schedule " ++ toString n) := by
  have hlist : ("Schedule " ++ toString n).toList = "Schedule ".toList ++ (toString n).toList :=
    String.toList_append ..
  refine ⟨?_, .inr ?_, ?_⟩
  · rw [hlist]
    exact (by decide : Text.Ordinary "Schedule ").chars.append fun c hc =>
      isOrdinary_of_isKeyChar (isKeyChar_toString n c hc)
  · have hdigits : ∃ c rest, (toString n).toList = c :: rest := by
      rw [Nat.toString_eq_repr, Nat.toList_repr]
      exact List.exists_cons_of_ne_nil Nat.toDigits_ne_nil
    obtain ⟨c, rest, hcons⟩ := hdigits
    have htail : Yaml.plainTail true (c :: rest) = true :=
      plainTail_of_isKeyChar true (hcons ▸ isKeyChar_toString n)
    rw [hlist, hcons]
    exact htail
  · have hbrackets : Brackets.ofWord? ("Schedule " ++ toString n) = none := by
      cases hword : Brackets.ofWord? ("Schedule " ++ toString n) with
      | none => rfl
      | some b =>
        have hpair := congrArg List.length ((Brackets.toList_of_ofWord? hword).symm.trans hlist)
        simp at hpair
    rw [wordValue?, hbrackets]
    exact isSome_ofPlain?_of_capital hlist

/-! ## Steps -/

/-- With a line feed in the place of none at the end, a command is ordinary text. -/
theorem ordinary_ended {command : String} (h : Text.Ordinary command)
    (hfull : Text.isBlank command.toList = false) (hlast : command.toList.getLast? ≠ some '\n') :
    Text.Ordinary (command ++ "\n") := by
  have hlist : (command ++ "\n").toList = command.toList ++ ['\n'] := String.toList_append ..
  refine ⟨?_, fun heq => ?_, fun hsuffix => hlast ?_⟩
  · have hfeed : Text.OrdinaryChars ['\n'] := by
      intro c hc
      obtain rfl := List.mem_singleton.1 hc
      decide
    rw [hlist]
    exact h.chars.append hfeed
  · have hnil : command.toList = [] := List.append_left_eq_self.1 (hlist.symm.trans heq)
    rw [hnil] at hfull
    exact absurd hfull (by decide)
  · rw [hlist, List.suffix_concat_iff] at hsuffix
    obtain ⟨before, hbefore, hsuffix⟩ := hsuffix.resolve_left (List.cons_ne_nil _ _)
    obtain rfl : before = ['\n'] := List.append_cancel_right hbefore.symm
    exact @Text.getLast?_of_suffix [] '\n' command.toList hsuffix

/-- The text that is written for a command. -/
theorem exists_scriptOutline {command : String} (h : Text.Ordinary command)
    (hfull : Text.isBlank command.toList = false) :
    ∃ script, scriptOutline command = .value script ∧ IsScript command script ∧
      Text.Ordinary script := by
  refine ⟨_, rfl, ?_⟩
  by_cases hlast : command.toList.getLast? = some '\n'
  · have hended : (command.toList.getLast? == some '\n') = true := by simpa using hlast
    simp only [hended, if_true, ite_self]
    exact ⟨.inl rfl, h⟩
  · have hended : ¬(command.toList.getLast? == some '\n') = true := by simpa using hlast
    simp only [if_neg hended]
    split
    · exact ⟨.inr ⟨rfl, hlast⟩, ordinary_ended h hfull hlast⟩
    · exact ⟨.inl rfl, h⟩

/-- The fields of a step that runs a command. -/
def stepLines (s : Step) (command : String) : List (Line Outline) :=
  [.field "script" (scriptOutline command)] ++ textField "displayName" s.name
    ++ textField "workingDirectory" s.directory ++ valueField "condition" s.condition
    ++ varsField "env" s.env

/-- A step is written if it has a command that is not blank. -/
theorem stepOutline?_eq (s : Step) :
    stepOutline? s = s.fullCommand?.map fun command => .fields (stepLines s command) := by
  obtain ⟨name, action, env, condition, directory⟩ := s
  rw [Step.fullCommand?]
  cases action with
  | uses id inputs => split <;> rfl
  | run command =>
    rw [stepOutline?]
    dsimp only
    split <;> rfl

/-- A command that is not blank is a text of its step. -/
theorem of_fullCommand? {s : Step} {command : String} (h : s.fullCommand? = some command) :
    s.command? = some command ∧ Text.isBlank command.toList = false ∧ command ∈ s.texts := by
  obtain ⟨name, action, env, condition, directory⟩ := s
  rw [Step.fullCommand?] at h
  split at h
  · cases h
  rename_i hfull
  cases action with
  | uses id inputs => cases h
  | run other =>
    obtain rfl := Option.some.inj h
    exact ⟨rfl, by simpa [Step.isVoid] using hfull, by simp [Step.texts, Action.texts]⟩

section

variable {levels : Nat} {s : Step} {command : String} (hcommand : s.fullCommand? = some command)
  (htexts : ∀ t ∈ s.texts, Text.Ordinary t)

include hcommand htexts

theorem items_stepLines (hfields : ∀ name ∈ s.env.names, IsFieldName name) :
    Items (levels + 2) true [.fields (stepLines s command)] := by
  obtain ⟨-, hfull, hmem⟩ := of_fullCommand? hcommand
  obtain ⟨script, houtline, -, hscript⟩ := exists_scriptOutline (htexts _ hmem) hfull
  obtain ⟨hname, -, henv, hcondition, hdirectory⟩ := Step.forall_texts.1 htexts
  have hscript : Part (levels + 1) ["script"] true [.field "script" (scriptOutline command)] := by
    rw [houtline]
    exact .formatField (by decide) (.value hscript)
  exact .fields ((((hscript.append (.textField (by decide) hname)).append
    (.textField (by decide) hdirectory)).append (.valueField (by decide) hcondition)).append
      (.namedVarsField (by decide) henv hfields)) (by decide) (List.cons_ne_nil _ _)

theorem isStep_stepLines : IsStep s (node (.fields (stepLines s command))) := by
  obtain ⟨hown, hfull, hmem⟩ := of_fullCommand? hcommand
  obtain ⟨script, houtline, hscript, -⟩ := exists_scriptOutline (htexts _ hmem) hfull
  have hget : (node (.fields (stepLines s command))).get? "script" = some (.scalar script) := by
    simp [stepLines, houtline]
  refine ⟨⟨command, script, hown, hget, hscript⟩, ?_, ?_, ?_, ?_⟩
  · simp [stepLines, List.lookup_append, List.lookup_cons]
  · simp [stepLines, List.lookup_append, List.lookup_cons]
  · simp [stepLines, List.lookup_append, List.lookup_cons]
  · simp [stepLines, List.lookup_append, List.lookup_cons]

end

/-- The steps of a job are written in order, as far as they have commands. -/
theorem forall₂_stepOutlines {steps : List Step}
    (htexts : ∀ s ∈ steps, ∀ t ∈ s.texts, Text.Ordinary t) :
    List.Forall₂ IsStep (steps.filter fun s => s.fullCommand?.isSome)
      ((steps.filterMap stepOutline?).map node) := by
  induction steps with
  | nil => exact .nil
  | cons s steps ih =>
    have ih := ih fun other hother => htexts other (List.mem_cons_of_mem _ hother)
    have hwritten := stepOutline?_eq s
    cases hcommand : s.fullCommand? with
    | none =>
      rw [hcommand] at hwritten
      rw [List.filterMap_cons_none hwritten, List.filter_cons_of_neg (by simp [hcommand])]
      exact ih
    | some command =>
      rw [hcommand] at hwritten
      rw [List.filterMap_cons_some hwritten, List.filter_cons_of_pos (by simp [hcommand])]
      exact .cons (isStep_stepLines hcommand (htexts s (List.mem_cons_self ..))) ih

/-! ## Stages -/

/-- The steps of a job, after the one that checks out the repository. -/
def stepItems (j : Job) : List Outline :=
  .fields [.field "checkout" (.text "self")] :: j.steps.filterMap stepOutline?

/-- The fields of the job of a stage. -/
def jobLines (key : String) (j : Job) : List (Line Outline) :=
  [.field "job" (.text key)]
    ++ (if j.runsOnImage then [.field "container" (.text j.runsOn)] else [])
    ++ varsField "variables" j.environment ++ [.field "steps" (.list (stepItems j))]

/-- The field for the stages that come first, which is there also if there are none. -/
def needsLines (keys : KeyTable) (j : Job) : List (Line Outline) :=
  if j.dependsOn.isEmpty then [.field "dependsOn" (.word "[]")]
  else listField "dependsOn" (keys.keys j.dependsOn)

/-- The fields of a stage. -/
def stageLines (keys : KeyTable) (j : Job) : List (Line Outline) :=
  [.field "stage" (.text (keys.key j.name))] ++ needsLines keys j
    ++ valueField "condition" j.condition
    ++ [.field "jobs" (.list [.fields (jobLines (keys.key j.name) j)])]

theorem stageOutline_eq (keys : KeyTable) (j : Job) :
    stageOutline keys j = .fields (stageLines keys j) := rfl

/-- The fields that a stage can have. -/
def stageFields : List String := ["stage", "dependsOn", "condition", "jobs"]

@[simp] theorem lookup_needsLines (keys : KeyTable) (j : Job) (key : String) :
    (lineNodes (needsLines keys j)).lookup key =
      if key = "dependsOn" then some (.list ((keys.keys j.dependsOn).map .scalar)) else none := by
  unfold needsLines
  cases j.dependsOn with
  | nil => exact lookup_single
  | cons name names => simp [listNode?, KeyTable.keys]

section

variable {levels : Nat} {j : Job} (h : WritableJob j)

include h

theorem items_stepItems : Items (levels + 2) true (stepItems j) := by
  have hcheckout : Items (levels + 2) true [.fields [.field "checkout" (.text "self")]] :=
    .fields (.formatField (by decide) (.text (by decide))) (by decide : ["checkout"].Nodup)
      (List.cons_ne_nil _ _)
  refine (hcheckout.append (Items.short fun item hitem => ?_)).of_eq rfl
  obtain ⟨s, hs, hitem⟩ := List.mem_filterMap.1 hitem
  rw [stepOutline?_eq] at hitem
  obtain ⟨command, hcommand, rfl⟩ := Option.map_eq_some_iff.1 hitem
  exact items_stepLines hcommand (fun t ht => h.texts t (Job.mem_texts_of_step hs ht))
    fun name hname => h.fields name (Job.mem_variableNames_of_step hs hname)

theorem items_jobLines {key : String} (hkey : IsKey key) :
    Items (levels + 4) true [.fields (jobLines key j)] := by
  obtain ⟨-, hrunner, -, henv, -⟩ := Job.forall_texts.1 h.texts
  obtain ⟨hnames, -⟩ := Job.forall_variableNames.1 h.fields
  have hname : Part (levels + 3) ["job"] true [.field "job" (.text key)] :=
    .formatField (by decide) (.text hkey.ordinary)
  have hcontainer : Part (levels + 3) ["container"] true
      (if j.runsOnImage then [.field "container" (.text j.runsOn)] else []) :=
    .choice (fun _ => .formatField (by decide) (.text hrunner)) fun _ => .absent
  exact .fields (((hname.append hcontainer).append (.namedVarsField (by decide) henv hnames)).append
    (.formatField (by decide) (items_stepItems h).list)) (by decide) (List.cons_ne_nil _ _)

theorem isJob_jobLines (key : String) : IsJob key j (node (.fields (jobLines key j))) := by
  have hsteps :
      (node (.fields (jobLines key j))).get? "steps" = some (node (.list (stepItems j))) := by
    simp [jobLines, List.lookup_append, List.lookup_cons]
  refine ⟨?_, ?_, ?_, (j.steps.filterMap stepOutline?).map node, ?_, ?_⟩
  · simp [jobLines]
  · simp [jobLines, List.lookup_append, List.lookup_cons]
  · simp [jobLines, List.lookup_append, List.lookup_cons]
  · rw [hsteps, stepItems, node_list_cons]
    rfl
  · exact forall₂_stepOutlines fun s hs t ht => h.texts t (Job.mem_texts_of_step hs ht)

theorem part_stageLines {keys : KeyTable} (hkeys : ∀ name, IsKey (keys.key name)) :
    Part (levels + 5) stageFields true (stageLines keys j) := by
  obtain ⟨-, -, -, -, -, -, -, -, hcondition⟩ := Job.forall_texts.1 h.texts
  have hname : Part (levels + 5) ["stage"] true [.field "stage" (.text (keys.key j.name))] :=
    .formatField (by decide) (.text (hkeys j.name).ordinary)
  have hneeds : Part (levels + 5) ["dependsOn"] true (needsLines keys j) := by
    refine .choice (fun _ => .formatField (by decide) (.word isWord_brackets)) fun _ =>
      .listField (by decide) fun s hs => ?_
    obtain ⟨name, -, rfl⟩ := List.mem_map.1 hs
    exact (hkeys name).ordinary
  exact ((hname.append hneeds).append (.valueField (by decide) hcondition)).append
    (.formatField (by decide) (items_jobLines h (hkeys j.name)).list)

theorem items_stageOutline {keys : KeyTable} (hkeys : ∀ name, IsKey (keys.key name)) :
    Items (levels + 6) true [stageOutline keys j] :=
  .fields (part_stageLines h hkeys) (by decide) (List.cons_ne_nil _ _)

theorem isStage_stageOutline (keys : KeyTable) : IsStage keys j (node (stageOutline keys j)) := by
  rw [stageOutline_eq]
  refine ⟨?_, ?_, ?_, node (.fields (jobLines (keys.key j.name) j)), ?_, isJob_jobLines h _⟩
  · simp [stageLines]
  · simp [stageLines, List.lookup_append, List.lookup_cons]
  · simp [stageLines, List.lookup_append, List.lookup_cons]
  · simp [stageLines, List.lookup_append, List.lookup_cons, node_list_cons]

end

/-! ## Triggers -/

section

variable {levels : Nat} {triggers : List Trigger}
  (htexts : ∀ t ∈ triggers, ∀ s ∈ t.texts, Text.Ordinary s)

include htexts

theorem ordinary_branchPatterns : ∀ s ∈ branchPatterns triggers, Text.Ordinary s := by
  unfold branchPatterns
  split
  · decide
  · exact Trigger.forall_patterns fun t ht => (Trigger.forall_texts.1 (htexts t ht)).1

theorem written_filterOutline : Written (levels + 3) true (filterOutline triggers) := by
  have hpaths : ∀ s ∈ Trigger.patterns triggers (·.paths), Text.Ordinary s :=
    Trigger.forall_patterns fun t ht => (Trigger.forall_texts.1 (htexts t ht)).2.1
  have hinclude : ∀ {patterns : List String}, (∀ s ∈ patterns, Text.Ordinary s) →
      Written (levels + 2) true (.fields (listField "include" patterns)) := fun h =>
    (Part.listField (by decide) h).fields (by decide : ["include"].Nodup)
  have hbranches : Part (levels + 2) ["branches"] true
      [.field "branches" (.fields (listField "include" (branchPatterns triggers)))] :=
    .formatField (by decide) (hinclude (ordinary_branchPatterns htexts))
  unfold filterOutline
  cases hown : Trigger.patterns triggers (·.paths) with
  | nil => exact hbranches.fields (by decide)
  | cons path paths =>
    exact (hbranches.append (.formatField (by decide) (hinclude (hown ▸ hpaths)))).fields
      (by decide : ["branches", "paths"].Nodup)

theorem part_pushLine : Part (levels + 3) ["trigger"] true [pushLine triggers] := by
  have hown : ∀ t ∈ triggers.filter fun t => t.event == .push, ∀ s ∈ t.texts, Text.Ordinary s :=
    fun t ht => htexts t (List.mem_filter.1 ht).1
  refine .formatField (by decide) ?_
  split
  · exact .word isWord_none
  · exact written_filterOutline hown

theorem part_pullRequestLines : Part (levels + 3) ["pr"] true (pullRequestLines triggers) := by
  have hown : ∀ t ∈ triggers.filter fun t => t.event == .pullRequest, ∀ s ∈ t.texts,
      Text.Ordinary s := fun t ht => htexts t (List.mem_filter.1 ht).1
  unfold pullRequestLines
  split
  · exact .absent
  · exact .formatField (by decide) (written_filterOutline hown)

omit htexts in
theorem items_scheduleOutline (number : Nat) {cron : String} {branches : List String}
    (hcron : Text.Ordinary cron) (hbranches : ∀ s ∈ branches, Text.Ordinary s) :
    Items (levels + 3) true [scheduleOutline number cron branches] := by
  have hfilter : Part (levels + 2) ["branches"] true (if branches.isEmpty then []
      else [.field "branches" (.fields (listField "include" branches))]) :=
    .choice (fun _ => .absent) fun _ => .formatField (by decide)
      ((Part.listField (by decide) hbranches).fields (by decide : ["include"].Nodup))
  exact .fields ((((Part.formatField (by decide) (.text hcron)).append
    (.formatField (by decide) (.word (isWord_schedule number)))).append hfilter).append
      (.formatField (by decide) (.word isWord_true)))
        (by decide : ["cron", "displayName", "branches", "always"].Nodup) (List.cons_ne_nil _ _)

theorem part_scheduleLines : Part (levels + 4) ["schedules"] true (scheduleLines triggers) := by
  refine .choice (fun _ => .absent) fun _ => .formatField (by decide)
    (Items.short fun item hitem => ?_).list
  obtain ⟨i, hi, rfl⟩ := List.mem_mapIdx.1 hitem
  obtain ⟨t, ht, hschedule⟩ := List.mem_filterMap.1 (List.getElem_mem hi)
  obtain ⟨cron, hcron, hpair⟩ := Option.map_eq_some_iff.1 hschedule
  obtain ⟨hbranches, -, htimes⟩ := Trigger.forall_texts.1 (htexts t (List.mem_filter.1 ht).1)
  rw [← hpair]
  exact items_scheduleOutline _ (htimes cron hcron) hbranches

end

/-! ## Files -/

theorem sound_keyRules : keyRules.Sound := by
  refine ⟨fun name => ?_, by decide, fun _ hw => absurd hw List.not_mem_nil⟩
  obtain ⟨hne, hchars⟩ := KeyRules.isKey_cleanName name
  refine ⟨fun hempty => hne ?_, fun c hc => ?_⟩
  · have hnil := congrArg String.toList hempty
    rw [keyRules, String.toList_ofList] at hnil
    exact String.toList_inj.1 (List.map_eq_nil_iff.1 hnil)
  · rw [keyRules, String.toList_ofList] at hc
    obtain ⟨d, hd, rfl⟩ := List.mem_map.1 hc
    split
    · decide
    · exact hchars d hd

theorem isKey_keys (p : Pipeline) (name : String) : IsKey ((keys p).key name) :=
  (KeyTable.key_ofJobs sound_keyRules p.jobs name).1

/-- The fields that a file can have. -/
def rootFields : List String := ["trigger", "pr", "schedules", "variables", "pool", "stages"]

/-- The lines of a file in front of its stages. -/
def frontLines (p : Pipeline) : List (Line Outline) :=
  [pushLine p.triggers] ++ pullRequestLines p.triggers ++ scheduleLines p.triggers ++ [.empty]
    ++ varsParagraph "variables" p.environment
    ++ [.field "pool" (.fields [.field "vmImage" (.text machineImage)]), .empty]

/-- The stages of a file. -/
def stagesOutline (p : Pipeline) : Outline :=
  if p.jobs.isEmpty then .word "[]" else .list (p.jobs.map (stageOutline (keys p)))

theorem outline_eq (p : Pipeline) :
    outline p = frontLines p ++ [.field "stages" (stagesOutline p)] := by
  simp [outline, frontLines, varsParagraph, stagesOutline, keys]

theorem node_stagesOutline (p : Pipeline) : node (stagesOutline p) =
    .list (p.jobs.map fun j => node (stageOutline (keys p) j)) := by
  unfold stagesOutline
  cases p.jobs with
  | nil => rfl
  | cons j jobs => exact (node_list_cons _ _).trans (by rw [List.map_map]; rfl)

/-- No line in front of the stages is about them. -/
theorem lookup_frontLines (p : Pipeline) : (lineNodes (frontLines p)).lookup "stages" = none := by
  have hpush : (lineNodes [pushLine p.triggers]).lookup "stages" = none := by
    simp [pushLine, List.lookup_cons]
  have hpull : (lineNodes (pullRequestLines p.triggers)).lookup "stages" = none := by
    unfold pullRequestLines
    split <;> simp [List.lookup_cons]
  have hschedules : (lineNodes (scheduleLines p.triggers)).lookup "stages" = none := by
    simp [scheduleLines]
  simp only [frontLines, lineNodes_append, List.lookup_append, hpush, hpull, hschedules,
    lineNodes_varsParagraph, lookup_varsField, lineNodes_empty, lineNodes_field, lineNodes_nil,
    lookup_single, Option.none_or]
  rfl

theorem lookup_stages (p : Pipeline) : (lineNodes (outline p)).lookup "stages" =
    some (.list (p.jobs.map fun j => node (stageOutline (keys p) j))) := by
  rw [outline_eq, lineNodes_append, List.lookup_append, lookup_frontLines, lineNodes_field,
    node_stagesOutline]
  rfl

section

variable {p : Pipeline} (h : Writable p)

include h

theorem part_frontLines :
    Part 127 ["trigger", "pr", "schedules", "variables", "pool"] true (frontLines p) := by
  obtain ⟨-, htriggers, henv, -⟩ := Pipeline.forall_texts.1 h.texts
  obtain ⟨hnames, -⟩ := Pipeline.forall_variableNames.1 h.fields
  have hpool : Part 127 ["pool"] true
      [.field "pool" (.fields [.field "vmImage" (.text machineImage)]), .empty] :=
    (Part.formatField (by decide) ((Part.formatField (by decide) (.text (by decide))).fields
      (by decide : ["vmImage"].Nodup))).append .empty
  exact (((((part_pushLine htriggers).append (part_pullRequestLines htriggers)).append
    (part_scheduleLines htriggers)).append .empty).append
      (.namedVarsParagraph (by decide) henv hnames)).append hpool

theorem written_stagesOutline : Written 127 true (stagesOutline p) := by
  unfold stagesOutline
  split
  · exact .word isWord_brackets
  · exact (Items.shortMap fun j hj => items_stageOutline (h.job hj) (isKey_keys p)).list

/-- The stages of a file are those of its jobs, in order. -/
theorem forall₂_stages : ∃ stages, node (stagesOutline p) = .list stages ∧
    List.Forall₂ (IsStage (keys p)) p.jobs stages := by
  refine ⟨p.jobs.map fun j => node (stageOutline (keys p) j), node_stagesOutline p, ?_⟩
  exact List.forall₂_map_right_iff.2
    (List.forall₂_same.2 fun j hj => isStage_stageOutline (h.job hj) (keys p))

/-- A file has fixed fields. -/
theorem part_outline : Part 127 rootFields true (outline p) := by
  rw [outline_eq]
  exact (part_frontLines h).append (.formatField (by decide) (written_stagesOutline h))

theorem written_outline : Written 128 true (.fields (outline p)) :=
  (part_outline h).fields (by decide)

/-- An Azure file can be read. -/
theorem ofYaml?_write : Node.ofYaml? (write p) = some (node (.fields (outline p))) :=
  (written_outline h).ofYaml?_print

/-- An Azure file holds a stage for each job of the pipeline, in order. -/
theorem stages_write : ∃ file stages, Node.ofYaml? (write p) = some file ∧
    file.get? "stages" = some (.list stages) ∧ List.Forall₂ (IsStage (keys p)) p.jobs stages := by
  obtain ⟨stages, hstages, hforall⟩ := forall₂_stages h
  refine ⟨node (.fields (outline p)), stages, ofYaml?_write h, ?_, hforall⟩
  rw [get?_node_fields, lookup_stages, ← node_stagesOutline, hstages]

end

/-- A pipeline with two names that are cleaned up to one key, and commands that no block carries. -/
def stagedJobs : Pipeline where
  name := "CI"
  triggers := [{ Trigger.on .push with branches := ["main"], paths := ["src/**"] },
    .on .pullRequest, .atTimes "0 3 * * *"]
  environment := ⟨[("MODE", "it's"), ("true", "")], by decide⟩
  jobs := [
    { Job.new "build-linux" "rust:1.80" with
      environment := ⟨[("RUST_LOG", "a\nb\n")], by decide⟩
      steps := [.uses "actions/checkout@v4", .run "  make\nmake test", .run " \n",
        .run "./report\n"]
      condition := some "succeeded()" },
    { Job.new "Build Linux" "ubuntu-latest" with
      dependsOn := ["build-linux", "missing job"]
      steps := [(((Step.run "./deploy").named "Deploy: all").inDirectory "ops").setEnv "CI" "1"] }]

theorem writable_stagedJobs : Writable stagedJobs := ⟨by decide, by decide⟩

theorem stages_write_stagedJobs : ∃ file stages, Node.ofYaml? (write stagedJobs) = some file ∧
    file.get? "stages" = some (.list stages) ∧
      List.Forall₂ (IsStage (keys stagedJobs)) stagedJobs.jobs stages :=
  stages_write writable_stagedJobs

end Azure
end CiPipelines

import CiPipelines.Circleci.Reader
import CiPipelines.Circleci.Writer
import CiPipelines.Proofs.PipelineTexts

/-!
# What the items of a CircleCI job say

Steps, caches and the paths of artifacts are all items of one list.  Read from front to back, the
items of a job first give its steps, then its caches, then its artifacts path by path.  A step can
come back as another: a command of CircleCI with inputs whose name is that of a step of CircleCI
itself is read as that step.
-/

namespace CiPipelines
namespace Circleci

open Outline

/-! ## What is said -/

/-- The inputs of an action as fields. -/
def inputsNode (inputs : Vars) : Node := .fields (inputs.entries.map fun e => (e.1, .scalar e.2))

theorem vars_inputsNode (inputs : Vars) : (inputsNode inputs).vars = inputs :=
  ofList_scalars inputs fun _ => rfl

/-- Adds what is said of a step. -/
def addSaid (c : Contents) (s : Step) : Contents :=
  if s.isVoid then c
  else match s.action with
    | .uses id inputs =>
      if s.isCheckout then c.addStep checkout
      else if isCommand id then
        if inputs.isEmpty then c.addStep (.uses id) else readField c id (inputsNode inputs)
      else c
    | .run command => c.addStep ⟨s.name, .run command, s.env, none, s.directory⟩

/-- Adds the paths of an artifact. -/
def addPaths (c : Contents) (a : Artifact) : Contents :=
  a.paths.foldl (fun c path => c.addArtifact a.name path) c

/-- What the items of a job say. -/
def saidContents (j : Job) : Contents :=
  let first := if j.hasCheckout then .empty else Contents.empty.addStep checkout
  let steps := j.steps.foldl addSaid first
  j.artifacts.foldl addPaths { steps with cache := steps.cache ++ j.cache }

/-! ## Cases -/

/-- The steps of CircleCI itself that have a body. -/
def builtInSteps : List String :=
  ["run", "checkout", "save_cache", "store_artifacts"] ++ ignoredSteps

/-- What reading a step with a body can do. -/
theorem readField_cases {motive : Contents → Prop} (c : Contents) (kind : String) (body : Node)
    (run : kind = "run" → motive (c.addStep (readRun body)))
    (checkout : kind = "checkout" → motive (c.addStep checkout))
    (cache : kind = "save_cache" →
      motive (c.addCache ⟨(body.textAt? "key").getD "default", body.textsAt "paths"⟩))
    (artifact : kind = "store_artifacts" → ∀ path ∈ body.textAt? "path",
      motive (c.addArtifact ((body.textAt? "destination").getD "artifacts") path))
    (nothing : motive c)
    (command : kind ∉ builtInSteps → motive (c.addStep (.ofAction (.uses kind body.vars)))) :
    motive (readField c kind body) := by
  unfold readField
  split
  · rename_i hrun
    exact run (beq_iff_eq.1 hrun)
  split
  · rename_i hcheckout
    exact checkout (beq_iff_eq.1 hcheckout)
  split
  · rename_i hcache
    exact cache (beq_iff_eq.1 hcache)
  split
  · rename_i hartifact
    cases hpath : body.textAt? "path" with
    | none => exact nothing
    | some path => exact artifact (beq_iff_eq.1 hartifact) path hpath
  split
  · exact nothing
  · -- None of the names that were asked for is the name of the step.
    rename_i hrun hcheckout hcache hartifact hignored
    refine command ?_
    simp at hrun hcheckout hcache hartifact hignored
    simp [builtInSteps, hrun, hcheckout, hcache, hartifact, hignored]

/-- A step whose name no step of CircleCI itself has is read as a command. -/
theorem readField_command (c : Contents) {kind : String} (h : kind ∉ builtInSteps) (body : Node) :
    readField c kind body = c.addStep (.ofAction (.uses kind body.vars)) := by
  simp only [builtInSteps, List.mem_append, List.mem_cons, List.not_mem_nil, not_or,
    or_false] at h
  simp [readField, h]

/-- What is said of an action is the action, if it is a command and not taken for a checkout. -/
theorem addSaid_uses (c : Contents) {id : String} {inputs : Vars}
    (hid : inputs.isEmpty = false → id ∉ builtInSteps) :
    addSaid c (.ofAction (.uses id inputs)) =
      if Text.isBlank id.toList then c
      else if Text.occursIn "checkout".toList id.toList then c.addStep checkout
      else if isCommand id then c.addStep (.ofAction (.uses id inputs))
      else c := by
  have hinputs : (if inputs.isEmpty then c.addStep (.uses id)
      else readField c id (inputsNode inputs)) = c.addStep (.ofAction (.uses id inputs)) := by
    cases hempty : inputs.isEmpty with
    | true =>
      obtain rfl : inputs = .empty := Vars.ext_entries (List.isEmpty_iff.1 hempty)
      rfl
    | false =>
      rw [if_neg Bool.false_ne_true, readField_command c (hid hempty), vars_inputsNode]
  rw [← hinputs]
  rfl

/-- What is said of a step can be nothing, the step without its condition, a checkout, a command, or
what a command with inputs is read as. -/
theorem addSaid_cases {motive : Contents → Prop} (c : Contents) (s : Step)
    (void : s.isVoid = true → motive c)
    (run : ∀ command, s.isVoid = false → s.action = .run command →
      motive (c.addStep ⟨s.name, .run command, s.env, none, s.directory⟩))
    (checkout : ∀ id inputs, s.isVoid = false → s.isCheckout = true →
      s.action = .uses id inputs → motive (c.addStep checkout))
    (drop : ∀ id inputs, s.isVoid = false → s.isCheckout = false → s.action = .uses id inputs →
      isCommand id = false → motive c)
    (plain : ∀ id, s.isVoid = false → s.isCheckout = false → s.action = .uses id .empty →
      isCommand id = true → motive (c.addStep (.uses id)))
    (body : ∀ id inputs, s.isVoid = false → s.isCheckout = false → s.action = .uses id inputs →
      isCommand id = true → inputs.isEmpty = false → motive (readField c id (inputsNode inputs))) :
    motive (addSaid c s) := by
  -- One case for each test of `addSaid`, with what the tests before it have shown.
  unfold addSaid
  split
  · rename_i hvoid
    exact void hvoid
  rename_i hfull
  rw [Bool.not_eq_true] at hfull
  split
  · rename_i id inputs haction
    split
    · rename_i hcheckout
      exact checkout id inputs hfull hcheckout haction
    rename_i hother
    rw [Bool.not_eq_true] at hother
    split
    · rename_i hcommand
      cases hempty : inputs.isEmpty with
      | true =>
        obtain rfl : inputs = .empty := Vars.ext_entries (List.isEmpty_iff.1 hempty)
        exact plain id hfull hother haction hcommand
      | false => exact body id inputs hfull hother haction hcommand hempty
    · rename_i hdrop
      exact drop id inputs hfull hother haction (Bool.eq_false_iff.2 hdrop)
  · rename_i command haction
    exact run command hfull haction

/-! ## Reading the items -/

/-- The fields of a `run` step. -/
def runLines (name : Option String) (command : String) (env : Vars) (directory : Option String) :
    List (Line Outline) :=
  textField "name" name ++ [.field "command" (.value command)] ++ varsField "environment" env
    ++ textField "working_directory" directory

theorem readItem_field (c : Contents) (kind : String) (body : Outline) :
    readItem c (node (.fields [.field kind body])) = readField c kind (node body) := by
  rw [node_fields, if_neg (by simp)]
  rfl

/-- A step that runs a command is read back. -/
theorem readItem_run (c : Contents) (name : Option String) (command : String) (env : Vars)
    (directory : Option String) :
    readItem c (node (.fields [.field "run" (.fields (runLines name command env directory))])) =
      c.addStep ⟨name, .run command, env, none, directory⟩ := by
  have hbody : readRun (node (.fields (runLines name command env directory))) =
      ⟨name, .run command, env, none, directory⟩ := by
    have hfields : ∀ n : Node, n.isFields = true → readRun n =
        ⟨n.textAt? "name", .run ((n.textAt? "command").getD ""), n.varsAt "environment", none,
          n.textAt? "working_directory"⟩ := by
      intro n hn
      cases n <;> first | rfl | simp [Node.isFields] at hn
    rw [hfields _ (isFields_node_fields (by simp [runLines, lineKeys]))]
    simp [runLines, Node.textAt?, Node.varsAt, List.lookup_append, List.lookup_cons]
  rw [readItem_field, readField, hbody]
  rfl

/-- The items of a step are read as what is said of it. -/
theorem foldl_stepOutlines (c : Contents) (s : Step) :
    ((stepOutlines s).map node).foldl readItem c = addSaid c s := by
  obtain ⟨name, action, env, condition, directory⟩ := s
  unfold stepOutlines addSaid
  split
  · rfl
  · cases action with
    | run command => exact readItem_run c name command env directory
    | uses id inputs =>
      dsimp only
      split
      · rfl
      · rename_i hcheckout
        have hname : id ≠ "checkout" := by
          rintro rfl
          exact hcheckout rfl
        split
        · split
          · simp [readItem, hname]
          · rename_i hne
            rw [List.map_singleton, List.foldl_cons, readItem_field, node_vars hne]
            rfl
        · rfl

theorem foldl_steps (c : Contents) (steps : List Step) :
    ((steps.flatMap stepOutlines).map node).foldl readItem c = steps.foldl addSaid c := by
  induction steps generalizing c with
  | nil => rfl
  | cons s steps ih =>
    rw [List.flatMap_cons, List.map_append, List.foldl_append, foldl_stepOutlines, ih]
    rfl

/-- A cache is read back. -/
theorem readItem_cache (c : Contents) (cache : Cache) :
    readItem c (node (cacheOutline cache)) = c.addCache cache := by
  rw [cacheOutline, readItem_field]
  simp [readField, Node.textAt?, Node.textsAt, List.lookup_cons]

theorem foldl_caches (c : Contents) (caches : List Cache) :
    ((caches.map cacheOutline).map node).foldl readItem c =
      { c with cache := c.cache ++ caches } := by
  induction caches generalizing c with
  | nil => simp
  | cons cache caches ih =>
    rw [List.map_cons, List.map_cons, List.foldl_cons, readItem_cache, ih]
    simp [Contents.addCache]

theorem readItem_path (c : Contents) (name path : String) :
    readItem c (node (.fields [.field "store_artifacts" (.fields
      [.field "path" (.text path), .field "destination" (.text name)])])) =
        c.addArtifact name path := by
  rw [readItem_field]
  simp [readField, Node.textAt?, List.lookup_cons]

/-- The items of an artifact add its paths. -/
theorem foldl_artifactOutlines (c : Contents) (a : Artifact) :
    ((artifactOutlines a).map node).foldl readItem c = addPaths c a := by
  rw [artifactOutlines, addPaths, List.map_map, List.foldl_map]
  exact congrArg (fun f => a.paths.foldl f c) (funext fun c => funext fun path =>
    readItem_path c a.name path)

theorem foldl_artifacts (c : Contents) (artifacts : List Artifact) :
    ((artifacts.flatMap artifactOutlines).map node).foldl readItem c =
      artifacts.foldl addPaths c := by
  induction artifacts generalizing c with
  | nil => rfl
  | cons a artifacts ih =>
    rw [List.flatMap_cons, List.map_append, List.foldl_append, foldl_artifactOutlines, ih]
    rfl

/-- The items of a job are read as what they say. -/
theorem foldl_jobSteps (j : Job) :
    ((jobSteps j).map node).foldl readItem .empty = saidContents j := by
  have hfirst : (((if j.hasCheckout then [] else [.text "checkout"]) : List Outline).map
      node).foldl readItem .empty =
        if j.hasCheckout then .empty else Contents.empty.addStep checkout := by
    split <;> rfl
  rw [jobSteps, List.map_append, List.map_append, List.map_append, List.foldl_append,
    List.foldl_append, List.foldl_append, hfirst, foldl_steps, foldl_caches, foldl_artifacts]
  rfl

/-! ## Canonical steps -/

/-- The steps of CircleCI itself that no command can be named after, and the merge key. -/
def stepKinds : List String :=
  ["run", "save_cache", "store_artifacts", "restore_cache", "persist_to_workspace",
    "attach_workspace", "<<"]

/-- A step that a job of CircleCI can say. -/
inductive CanonicalStep : Step → Prop where
  | checkout : CanonicalStep checkout
  | run {name : Option String} {command : String} {env : Vars} {directory : Option String}
      (hblank : Text.isBlank command.toList = false) :
      CanonicalStep ⟨name, .run command, env, none, directory⟩
  | command {id : String} {inputs : Vars} (hblank : Text.isBlank id.toList = false)
      (hversion : '@' ∉ id.toList) (hpath : id.toList.head? ≠ some '.')
      (hcheckout : Text.occursIn "checkout".toList id.toList = false)
      (hkind : inputs.isEmpty = false → id ∉ stepKinds) :
      CanonicalStep (.ofAction (.uses id inputs))

theorem CanonicalStep.isVoid {s : Step} (h : CanonicalStep s) : s.isVoid = false := by
  cases h with
  | checkout => decide
  | run hblank => exact hblank
  | command hblank => exact hblank

/-- A canonical step is said as it is. -/
theorem CanonicalStep.addSaid {s : Step} (h : CanonicalStep s) (c : Contents) :
    addSaid c s = c.addStep s := by
  cases h with
  | checkout => rfl
  | run hblank =>
    rw [Circleci.addSaid, (CanonicalStep.run hblank).isVoid]
    rfl
  | @command id inputs hblank hversion hpath hcheckout hkind =>
    have hcommand : isCommand id = true := by simp [isCommand, hversion, hpath]
    have hname : id ≠ "checkout" := by
      rintro rfl
      exact absurd hcheckout (by decide)
    have hid : inputs.isEmpty = false → id ∉ builtInSteps := by
      intro hempty
      have hid := hkind hempty
      simp only [stepKinds, List.mem_cons, List.not_mem_nil, not_or, or_false] at hid
      simp [builtInSteps, ignoredSteps, hname, hid]
    rw [addSaid_uses c hid, hblank, hcheckout, hcommand]
    rfl

theorem foldl_addSaid (c : Contents) {steps : List Step} (h : ∀ s ∈ steps, CanonicalStep s) :
    steps.foldl addSaid c = { c with steps := c.steps ++ steps } := by
  induction steps generalizing c with
  | nil => simp
  | cons s steps ih =>
    rw [List.foldl_cons, (h s (List.mem_cons_self ..)).addSaid,
      ih (c.addStep s) fun other hother => h other (List.mem_cons_of_mem _ hother)]
    simp [Contents.addStep]

/-- A path is added to the last artifact if that has the name. -/
theorem addPath_append {name path : String} {paths : List String} {artifacts : List Artifact}
    (h : name ∉ artifacts.map (·.name)) :
    Contents.addPath name path (artifacts ++ [⟨name, paths⟩]) =
      artifacts ++ [⟨name, paths ++ [path]⟩] := by
  induction artifacts with
  | nil => simp [Contents.addPath]
  | cons a artifacts ih =>
    have hne : a.name ≠ name := fun heq => h (heq ▸ List.mem_cons_self ..)
    have ih := ih fun hmem => h (List.mem_cons_of_mem _ hmem)
    rw [List.cons_append, Contents.addPath, if_neg hne, ih]
    rfl

/-- A path under a new name starts an artifact. -/
theorem addPath_new {name path : String} {artifacts : List Artifact}
    (h : name ∉ artifacts.map (·.name)) :
    Contents.addPath name path artifacts = artifacts ++ [⟨name, [path]⟩] := by
  induction artifacts with
  | nil => rfl
  | cons a artifacts ih =>
    have hne : a.name ≠ name := fun heq => h (heq ▸ List.mem_cons_self ..)
    rw [Contents.addPath, if_neg hne, ih fun hmem => h (List.mem_cons_of_mem _ hmem)]
    rfl

/-- The paths of an artifact of a new name are said as the artifact. -/
theorem addPaths_new (c : Contents) {a : Artifact} (hnew : a.name ∉ c.artifacts.map (·.name))
    (hpaths : a.paths ≠ []) : addPaths c a = { c with artifacts := c.artifacts ++ [a] } := by
  -- Once the first path has brought in the artifact, the other ones join it.
  have hmore : ∀ (more first : List String) (c' : Contents),
      c'.artifacts = c.artifacts ++ [⟨a.name, first⟩] →
        more.foldl (fun c path => c.addArtifact a.name path) c' =
          { c' with artifacts := c.artifacts ++ [⟨a.name, first ++ more⟩] } := by
    intro more
    induction more with
    | nil =>
      intro first c' hc
      simp [← hc]
    | cons path more ih =>
      intro first c' hc
      have hadd : (c'.addArtifact a.name path).artifacts =
          c.artifacts ++ [⟨a.name, first ++ [path]⟩] := by
        rw [Contents.addArtifact, hc]
        exact addPath_append hnew
      rw [List.foldl_cons, ih (first ++ [path]) _ hadd, List.append_assoc]
      rfl
  obtain ⟨path, more, hsplit⟩ := List.exists_cons_of_ne_nil hpaths
  have hfirst : (c.addArtifact a.name path).artifacts = c.artifacts ++ [⟨a.name, [path]⟩] :=
    addPath_new hnew
  rw [addPaths, hsplit, List.foldl_cons, hmore more [path] _ hfirst, List.singleton_append, ← hsplit]
  rfl

/-- Artifacts of different names that have paths are said as they are. -/
theorem foldl_addPaths (c : Contents) {artifacts : List Artifact}
    (hnodup : ((c.artifacts ++ artifacts).map (·.name)).Nodup)
    (hpaths : ∀ a ∈ artifacts, a.paths ≠ []) :
    artifacts.foldl addPaths c = { c with artifacts := c.artifacts ++ artifacts } := by
  induction artifacts generalizing c with
  | nil => simp
  | cons a artifacts ih =>
    have hnew : a.name ∉ c.artifacts.map (·.name) := by
      rw [List.map_append, List.map_cons] at hnodup
      intro hmem
      exact (List.nodup_append.1 hnodup).2.2 a.name hmem a.name (List.mem_cons_self ..) rfl
    have hnodup' : (((c.artifacts ++ [a]) ++ artifacts).map (·.name)).Nodup := by
      rwa [List.append_assoc, List.singleton_append]
    rw [List.foldl_cons, addPaths_new c hnew (hpaths a (List.mem_cons_self ..)),
      ih { c with artifacts := c.artifacts ++ [a] } hnodup'
        fun other hother => hpaths other (List.mem_cons_of_mem _ hother)]
    simp

/-- A job whose steps are canonical, with a checkout, and whose artifacts have names of their own
and paths, is said with its own steps, artifacts and caches. -/
theorem saidContents_eq {j : Job} (hcheckout : checkout ∈ j.steps)
    (hsteps : ∀ s ∈ j.steps, CanonicalStep s) (hnames : (j.artifacts.map (·.name)).Nodup)
    (hpaths : ∀ a ∈ j.artifacts, a.paths ≠ []) :
    saidContents j = ⟨j.steps, j.artifacts, j.cache⟩ := by
  have hhas : j.hasCheckout = true := List.any_eq_true.2 ⟨checkout, hcheckout, by decide⟩
  rw [saidContents, hhas, if_pos rfl, foldl_addSaid _ hsteps,
    foldl_addPaths _ (by simpa [Contents.empty] using hnames) hpaths]
  rfl

end Circleci
end CiPipelines

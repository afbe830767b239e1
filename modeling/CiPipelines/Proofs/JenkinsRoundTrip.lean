import CiPipelines.Proofs.JenkinsCommands
import CiPipelines.Proofs.PipelineTexts

/-!
# Jenkinsfiles are read back

What is read of a written pipeline are the commands of all its jobs in order, the variables of the
pipeline and then of each job, and the first image that a job runs in.  Each part of the text is
followed by what it does to the contents read so far, wherever it stands.
-/

namespace CiPipelines
namespace Jenkins

/-! ## Texts without line feeds -/

theorem lineFeed_not_mem_append {s t : String} (hs : '\n' ∉ s.toList) (ht : '\n' ∉ t.toList) :
    '\n' ∉ (s ++ t).toList := by
  rw [String.toList_append, List.mem_append, not_or]
  exact ⟨hs, ht⟩

theorem lineFeed_not_mem_quote {s : String} (h : '\n' ∉ s.toList) : '\n' ∉ (quote s).toList := by
  rw [quote_toList, List.mem_cons, List.mem_append, not_or, not_or]
  refine ⟨by decide, fun hmem => ?_, by decide⟩
  exact (mem_escape hmem).elim h (by decide)

theorem not_mem_intercalate {c : Char} {separator : List Char} {texts : List (List Char)}
    (hseparator : c ∉ separator) (h : ∀ text ∈ texts, c ∉ text) :
    c ∉ separator.intercalate texts := by
  induction texts with
  | nil => exact List.not_mem_nil
  | cons text texts ih =>
    have htext := h text (List.mem_cons_self ..)
    have hrest := ih fun other hother => h other (List.mem_cons_of_mem _ hother)
    cases texts with
    | nil => simpa using htext
    | cons next texts =>
      rw [List.intercalate_cons_cons, List.mem_append, List.mem_append, not_or, not_or]
      exact ⟨⟨htext, hseparator⟩, hrest⟩

theorem lineFeed_not_mem_intercalate {separator : String} {texts : List String}
    (hseparator : '\n' ∉ separator.toList) (h : ∀ s ∈ texts, '\n' ∉ s.toList) :
    '\n' ∉ (separator.intercalate texts).toList := by
  rw [String.toList_intercalate]
  refine not_mem_intercalate hseparator fun _ hmem => ?_
  obtain ⟨s, hs, rfl⟩ := List.mem_map.1 hmem
  exact h s hs

/-! ## Environments -/

theorem isNameChar_range {c : Char} (h : isNameChar c = true) : 48 ≤ c.toNat ∧ c.toNat ≤ 122 := by
  rw [isNameChar, Bool.or_eq_true, Text.isAlphanum_iff, beq_iff_eq] at h
  rcases h with h | rfl
  · omega
  · decide

/-- Variables that can be written: their values take one line. -/
def WritableVars (vars : Vars) : Prop :=
  ∀ e ∈ vars.entries, IsVariableName e.1 ∧ '\n' ∉ e.2.toList

instance (vars : Vars) : Decidable (WritableVars vars) :=
  inferInstanceAs (Decidable (∀ e ∈ vars.entries, _))

/-- The line of a variable, without its indentation. -/
def variableLine (e : String × String) : List Char :=
  e.1.toList ++ " = ".toList ++ (quote e.2).toList

theorem IsVariableName.lineFeed_not_mem {name : String} (h : IsVariableName name) :
    '\n' ∉ name.toList :=
  fun hmem => absurd (h.chars _ hmem) (by decide)

theorem lineFeed_not_mem_variableLine {e : String × String} (hname : '\n' ∉ e.1.toList)
    (hvalue : '\n' ∉ e.2.toList) : '\n' ∉ variableLine e := by
  rw [variableLine, List.mem_append, List.mem_append, not_or, not_or]
  exact ⟨⟨hname, by decide⟩, lineFeed_not_mem_quote hvalue⟩

theorem getLast?_variableLine (e : String × String) : (variableLine e).getLast? = some '\'' := by
  rw [variableLine, quote_toList, List.getLast?_append, List.getLast?_cons]
  simp

/-- The line of a variable sets it. -/
theorem readLine_variableLine {e : String × String} (hname : IsVariableName e.1) (width : Nat)
    (c : Contents) :
    Contents.readLine { c with mode := .environment 1 }
        (Text.dropLastChar '\r' (List.replicate width ' ' ++ variableLine e)) =
      { c with mode := .environment 1, environment := c.environment.insert e.1 e.2 } := by
  obtain ⟨first, rest, hlist, -⟩ := hname.start
  have hfirst : isNameChar first = true :=
    hname.chars first (by rw [hlist]; exact List.mem_cons_self ..)
  have hrange := isNameChar_range hfirst
  have hhead : (variableLine e).head? = some first := by rw [variableLine, hlist]; rfl
  have hlast := getLast?_variableLine e
  have hspace : Text.isSpace first = false := by
    simp [Text.isSpace]
    omega
  have hbrace : first ≠ '\x7d' := by
    rintro rfl
    exact absurd hrange.2 (by decide)
  rw [Contents.readLine]
  dsimp only
  rw [trim_line hhead hlast ⟨hspace, by decide⟩, Contents.readVariableLine, hlast, hhead,
    if_neg (by decide), if_neg (by simpa using hbrace), variableLine, assignment?_line hname]

theorem foldl_variableLines {entries : List (String × String)}
    (h : ∀ e ∈ entries, IsVariableName e.1) (width : Nat) (c : Contents) :
    (entries.map fun e => Text.dropLastChar '\r'
        (List.replicate width ' ' ++ variableLine e)).foldl Contents.readLine
        { c with mode := .environment 1 } =
      { c with mode := .environment 1, environment := c.environment.insertAll entries } := by
  induction entries generalizing c with
  | nil => rfl
  | cons e entries ih =>
    rw [List.map_cons, List.foldl_cons, readLine_variableLine (h e (List.mem_cons_self ..))]
    exact ih (fun e he => h e (List.mem_cons_of_mem _ he))
      { c with environment := c.environment.insert e.1 e.2 }

/-- A block of variables does what its lines do. -/
theorem reads_environment {vars : Vars} {level : Nat} (f : Vars → Vars)
    (hfeed : ∀ e ∈ vars.entries, '\n' ∉ variableLine e)
    (hread : ∀ c : Contents, (vars.entries.map fun e => Text.dropLastChar '\r'
        (List.replicate (4 * (level + 1)) ' ' ++ variableLine e)).foldl Contents.readLine
        { c with mode := .environment 1 } =
      { c with mode := .environment 1, environment := f c.environment }) :
    Reads (environmentBlock level vars) fun c => { c with environment := f c.environment } := by
  -- Without variables there is no block, and `hread` says that `f` changes nothing.
  rw [environmentBlock]
  split
  · rename_i hempty
    have hnil : vars.entries = [] := List.isEmpty_iff.1 hempty
    refine Reads.nil.congr fun c _ => ?_
    have hsame := hread c
    rw [hnil] at hsame
    rw [← (Contents.mk.inj hsame).2.2.1]
    rfl
  · refine reads_enclosed
      (vars.entries.map fun e => List.replicate (4 * (level + 1)) ' ' ++ variableLine e)
      ?_ ?_ (by decide) fun c hmode => ⟨?_, hmode⟩
    · rw [String.toList_join, List.flatMap_map, List.flatMap_map]
      refine congrArg (List.flatMap · vars.entries) (funext fun e => ?_)
      rw [line_toList, String.toList_append, String.toList_append, variableLine]
    · intro l hl
      obtain ⟨e, he, rfl⟩ := List.mem_map.1 hl
      exact lineFeed_not_mem_line (hfeed e he) _
    · have hopen : c.readLine (Text.dropLastChar '\r'
          (List.replicate (4 * level) ' ' ++ "environment \x7b".toList)) =
            { c with mode := .environment 1 } := by
        rw [Contents.readLine, hmode]
        dsimp only
        rw [@trim_line _ 'e' '\x7b' rfl rfl (by decide)]
        rfl
      have hclose : ∀ c' : Contents, Contents.readLine { c' with mode := .environment 1 }
          (Text.dropLastChar '\r' (List.replicate (4 * level) ' ' ++ "\x7d".toList)) =
            { c' with mode := .steps } := by
        intro c'
        rw [Contents.readLine]
        dsimp only
        rw [@trim_line _ '\x7d' '\x7d' rfl rfl (by decide)]
        rfl
      rw [List.map_map]
      show Contents.readLine (List.foldl Contents.readLine (c.readLine (Text.dropLastChar '\r'
        (List.replicate (4 * level) ' ' ++ "environment \x7b".toList))) _) _ = _
      rw [hopen]
      refine (congrArg (Contents.readLine · _) (hread c)).trans ?_
      rw [hmode]
      exact hclose { c with environment := f c.environment }

/-- A block of variables sets them, one after the other. -/
theorem reads_environmentBlock {vars : Vars} (h : WritableVars vars) (level : Nat) :
    Reads (environmentBlock level vars) fun c =>
      { c with environment := c.environment.insertAll vars.entries } :=
  reads_environment (fun environment => environment.insertAll vars.entries)
    (fun e he => lineFeed_not_mem_variableLine (h e he).1.lineFeed_not_mem (h e he).2)
    (foldl_variableLines (fun e he => (h e he).1) _)

/-! ## Steps -/

/-- A step that can be written. -/
structure WritableStep (s : Step) : Prop where
  command : ∀ command ∈ s.command?, '\n' ∈ command.toList → '\r' ∉ command.toList
  env : ∀ e ∈ s.env.entries, '\n' ∉ e.1.toList ∧ '\n' ∉ e.2.toList
  directory : ∀ directory ∈ s.directory, '\n' ∉ directory.toList

instance (s : Step) : Decidable (WritableStep s) :=
  decidable_of_iff
    ((∀ command ∈ s.command?, '\n' ∈ command.toList → '\r' ∉ command.toList) ∧
      (∀ e ∈ s.env.entries, '\n' ∉ e.1.toList ∧ '\n' ∉ e.2.toList) ∧
      ∀ directory ∈ s.directory, '\n' ∉ directory.toList)
    ⟨fun ⟨hcommand, henv, hdirectory⟩ => ⟨hcommand, henv, hdirectory⟩,
      fun h => ⟨h.command, h.env, h.directory⟩⟩

theorem reads_withVariables {command : String} (hblank : Text.isBlank command.toList = false)
    (hreturn : '\n' ∈ command.toList → '\r' ∉ command.toList) {vars : Vars}
    (hvars : ∀ e ∈ vars.entries, '\n' ∉ e.1.toList ∧ '\n' ∉ e.2.toList) (level : Nat) :
    Reads (withVariables level vars command) fun c => c.addCommand (normalCommand command) := by
  rw [withVariables]
  split
  · exact reads_commandText hblank hreturn level
  · refine reads_block (startsAside_append (startsAside_append (by decide) _) _) ?_
      (reads_commandText hblank hreturn (level + 1)) level
    refine lineFeed_not_mem_append (lineFeed_not_mem_append (by decide) ?_) (by decide)
    refine lineFeed_not_mem_intercalate (by decide) fun s hs => ?_
    obtain ⟨e, he, rfl⟩ := List.mem_map.1 hs
    obtain ⟨hname, hvalue⟩ := hvars e he
    exact lineFeed_not_mem_quote
      (lineFeed_not_mem_append (lineFeed_not_mem_append hname (by decide)) hvalue)

/-- A step is written if its command is not blank, and read as its command. -/
theorem reads_stepText {s : Step} (h : WritableStep s) :
    (stepText? s = none ∧ s.fullCommand? = none) ∨
      ∃ text command, stepText? s = some text ∧ s.fullCommand? = some command ∧
        Reads text fun c => c.addCommand (normalCommand command) := by
  obtain ⟨name, action, env, condition, directory⟩ := s
  cases action with
  | uses id inputs =>
    left
    refine ⟨rfl, ?_⟩
    rw [Step.fullCommand?]
    split <;> rfl
  | run command =>
    by_cases hblank : Text.isBlank command.toList = true
    · left
      exact ⟨if_pos hblank, if_pos hblank⟩
    · right
      have htext : ∀ level, Reads (withVariables level env command) fun c =>
          c.addCommand (normalCommand command) :=
        reads_withVariables (Bool.eq_false_iff.2 hblank) (h.command command rfl) h.env
      cases directory with
      | none => exact ⟨_, command, if_neg hblank, if_neg hblank, htext 4⟩
      | some directory =>
        refine ⟨_, command, if_neg hblank, if_neg hblank, reads_block ?_ ?_ (htext 5) 4⟩
        · exact startsAside_append (startsAside_append (by decide) _) _
        · exact lineFeed_not_mem_append (lineFeed_not_mem_append (by decide)
            (lineFeed_not_mem_quote (h.directory directory rfl))) (by decide)

/-- The texts of steps are read as their commands. -/
theorem reads_stepTexts {steps : List Step} (h : ∀ s ∈ steps, WritableStep s) :
    Reads (String.join (steps.filterMap stepText?)) fun c => { c with
      commands := c.commands ++ (steps.filterMap Step.fullCommand?).map normalCommand } := by
  induction steps with
  | nil => exact Reads.nil.congr fun c _ => by simp
  | cons s steps ih =>
    have hrest := ih fun s hs => h s (List.mem_cons_of_mem _ hs)
    rcases reads_stepText (h s (List.mem_cons_self ..)) with
      ⟨htext, hcommand⟩ | ⟨text, command, htext, hcommand, hread⟩
    · rw [List.filterMap_cons_none htext, List.filterMap_cons_none hcommand]
      exact hrest
    · rw [List.filterMap_cons_some htext, List.filterMap_cons_some hcommand, String.join_cons]
      refine (hread.append hrest).congr fun c hmode => ?_
      simp [Contents.addCommand, hmode]

theorem reads_stepsText {steps : List Step} (h : ∀ s ∈ steps, WritableStep s) :
    Reads (stepsText steps) fun c => { c with
      commands := c.commands ++ (steps.filterMap Step.fullCommand?).map normalCommand } := by
  have hread := reads_stepTexts h
  rw [stepsText]
  split
  · rename_i hnone
    have hcommands : steps.filterMap Step.fullCommand? = [] := by
      refine List.filterMap_eq_nil_iff.2 fun s hs => ?_
      rcases reads_stepText (h s hs) with ⟨-, hcommand⟩ | ⟨text, -, htext, -, -⟩
      · exact hcommand
      · exact absurd (List.filterMap_eq_nil_iff.1 hnone s hs) (by simp [htext])
    rw [hcommands]
    exact (reads_aside (by decide) (by decide) 4).congr fun c _ => by simp
  · exact hread

/-! ## Stages -/

/-- A job that can be written. -/
structure WritableJob (j : Job) : Prop where
  name : '\n' ∉ j.name.toList
  runner : j.runsOnImage = true → ∀ c ∈ j.runsOn.toList, c ≠ '\n' ∧ isQuote c = false ∧ c ≠ '\\'
  needs : ∀ name ∈ j.dependsOn, '\n' ∉ name.toList
  environment : WritableVars j.environment
  steps : ∀ s ∈ j.steps, WritableStep s

/-- The image that a job runs in. -/
def image? (j : Job) : Option String := if j.runsOnImage then some j.runsOn else none

/-- The commands that are read of a job. -/
def saidCommands (j : Job) : List (List Char) := j.fullCommands.map normalCommand

/-- What the stage of a job adds. -/
def addStage (c : Contents) (j : Job) : Contents :=
  { c with
    commands := c.commands ++ saidCommands j
    environment := c.environment.insertAll j.environment.entries
    image := c.image.or (image? j) }

/-- The line of an image is read for the image only. -/
theorem reads_image {image : String} (hfeed : '\n' ∉ image.toList) (level : Nat) :
    Reads (line level ("image " ++ quote image)) fun c =>
      { c with image := c.image.or (dockerImage? ("image ".toList ++ (quote image).toList)) } := by
  refine reads_line level ?_ fun c hmode => ⟨?_, hmode⟩
  · exact lineFeed_not_mem_append (by decide) (lineFeed_not_mem_quote hfeed)
  · have hlist : ("image " ++ quote image).toList = "image ".toList ++ (quote image).toList :=
      String.toList_append ..
    have hlast : ("image ".toList ++ (quote image).toList).getLast? = some '\'' := by
      rw [quote_toList, List.getLast?_append, List.getLast?_cons]
      simp
    have hshell : isShell ("image ".toList ++ (quote image).toList) = false := rfl
    have henvironment :
        "environment".toList.isPrefixOf ("image ".toList ++ (quote image).toList) = false := rfl
    rw [hlist, @trim_line _ 'i' '\'' rfl hlast (by decide), Contents.readStepLine, henvironment,
      hshell]
    obtain ⟨mode, commands, environment, first⟩ := c
    cases first with
    | some image => rfl
    | none => cases dockerImage? ("image ".toList ++ (quote image).toList) <;> rfl

/-- The first image is read. -/
theorem reads_imageLine {image : String}
    (hplain : ∀ c ∈ image.toList, c ≠ '\n' ∧ isQuote c = false ∧ c ≠ '\\')
    (hne : image.toList ≠ []) (level : Nat) :
    Reads (line level ("image " ++ quote image)) fun c =>
      { c with image := c.image.or (some image) } := by
  have hread := reads_image (fun hmem => (hplain _ hmem).1 rfl) level
  rwa [dockerImage?_line (fun c hc => (hplain c hc).2) hne] at hread

theorem reads_agentBlock {j : Job} (h : WritableJob j) :
    Reads (agentBlock j) fun c => { c with image := c.image.or (image? j) } := by
  rw [agentBlock, image?]
  split
  · rename_i himage
    have hne : j.runsOn.toList ≠ [] := by
      intro hnil
      rw [Job.runsOnImage, hnil] at himage
      exact absurd himage (by decide)
    have hdocker : Reads (block 4 "docker" (line 5 ("image " ++ quote j.runsOn))) _ :=
      reads_block (by decide) (by decide) (reads_imageLine (h.runner himage) hne 5) 4
    exact reads_block (by decide) (by decide) hdocker 3
  · exact Reads.nil.congr fun c _ => by simp

theorem reads_conditionLine (condition : String) : Reads (conditionLine condition) id := by
  refine reads_aside (startsAside_append (by decide) _) (lineFeed_not_mem_append (by decide) ?_) 3
  rw [@String.toList_ofList ([' '].intercalate (Text.words condition.toList))]
  refine not_mem_intercalate (by decide) fun word hword hfeed => ?_
  have hpiece : word ∈ condition.toList.splitOnP Text.isSpace := (List.mem_filter.1 hword).1
  exact absurd (Text.of_mem_splitOnP hpiece hfeed).2 (by decide)

theorem reads_needs {needs : List String} (h : ∀ name ∈ needs, '\n' ∉ name.toList) :
    Reads (if needs.isEmpty then "" else line 3 ("// needs: " ++ ", ".intercalate needs)) id := by
  split
  · exact Reads.nil
  · exact reads_aside (startsAside_append (by decide) _) (lineFeed_not_mem_append (by decide)
      (lineFeed_not_mem_intercalate (by decide) h)) 3

/-- A stage is read as its container, its needs, its variables and its steps. -/
theorem reads_stage {j : Job} {f n g k : Contents → Contents} (hname : '\n' ∉ j.name.toList)
    (hagent : Reads (agentBlock j) f)
    (hneeds : Reads (if j.dependsOn.isEmpty then ""
      else line 3 ("// needs: " ++ ", ".intercalate j.dependsOn)) n)
    (henvironment : Reads (environmentBlock 3 j.environment) g)
    (hsteps : Reads (stepsText j.steps) k) : Reads (stageText j) fun c => k (g (n (f c))) := by
  have hcondition : Reads ((j.condition.map conditionLine).getD "") id := by
    cases j.condition with
    | none => exact Reads.nil
    | some condition => exact reads_conditionLine condition
  have hparts := (((hagent.append hcondition).append hneeds).append henvironment).append
    (reads_block (by decide : startsAside "steps" = true) (by decide) hsteps 3)
  refine reads_block (startsAside_append (startsAside_append (by decide) _) _) ?_ hparts 2
  exact lineFeed_not_mem_append
    (lineFeed_not_mem_append (by decide) (lineFeed_not_mem_quote hname)) (by decide)

theorem reads_stageText {j : Job} (h : WritableJob j) :
    Reads (stageText j) fun c => addStage c j :=
  reads_stage h.name (reads_agentBlock h) (reads_needs h.needs)
    (reads_environmentBlock h.environment 3) (reads_stepsText h.steps)

/-! ## Whole files -/

/-- A pipeline that can be written. -/
structure Writable (p : Pipeline) : Prop where
  environment : WritableVars p.environment
  jobs : ∀ j ∈ p.jobs, WritableJob j

/-- Texts with empty lines between them. -/
theorem reads_intercalate {α : Type} {xs : List α} {textOf : α → String}
    {f : Contents → α → Contents} (h : ∀ x ∈ xs, Reads (textOf x) fun c => f c x) :
    Reads ("\n".intercalate (xs.map textOf)) fun c => xs.foldl f c := by
  induction xs with
  | nil => exact .nil
  | cons x xs ih =>
    have hfirst := h x (List.mem_cons_self ..)
    have hrest := ih fun y hy => h y (List.mem_cons_of_mem _ hy)
    cases xs with
    | nil => simpa using hfirst
    | cons y ys =>
      rw [List.map_cons, List.map_cons, String.intercalate_cons_cons]
      exact (hfirst.append reads_empty).append hrest

/-- What the stages of several jobs add. -/
theorem foldl_addStage (jobs : List Job) (c : Contents) :
    jobs.foldl addStage c =
      { c with
        commands := c.commands ++ jobs.flatMap saidCommands
        environment := jobs.foldl (fun vars j => vars.insertAll j.environment.entries) c.environment
        image := c.image.or (jobs.findSome? image?) } := by
  induction jobs generalizing c with
  | nil => simp
  | cons j jobs ih =>
    rw [List.foldl_cons, ih, List.flatMap_cons, List.findSome?_cons]
    simp only [addStage, List.append_assoc, List.foldl_cons, Option.or_assoc]
    cases image? j <;> rfl

/-- The pipeline that is read of a Jenkinsfile: one job that runs the commands of all jobs, with all
their variables, in the first of their images. -/
def said (settings : Settings) (p : Pipeline) : Pipeline where
  name := "Pipeline"
  triggers := [.on .push]
  environment := p.jobs.foldl (fun vars j => vars.insertAll j.environment.entries) p.environment
  jobs := [{ Job.new "build" ((p.jobs.findSome? image?).getD settings.defaultRunner) with
    steps := stepsOf (p.jobs.flatMap saidCommands) }]

/-- The contents of a file are those of its environment and then of its stages. -/
theorem contents_write {p : Pipeline} {f : Contents → Contents} {g : Contents → Job → Contents}
    (henvironment : Reads (environmentBlock 1 p.environment) f)
    (hstages : ∀ j ∈ p.jobs, Reads (stageText j) fun c => g c j) :
    contents (write p).toList = p.jobs.foldl g (f .empty) := by
  have henvironment : Reads (if p.environment.isEmpty then "" else
      environmentBlock 1 p.environment ++ "\n") f := by
    split
    · rename_i hempty
      rwa [environmentBlock, if_pos hempty] at henvironment
    · exact henvironment.append reads_empty
  have hstages : Reads (block 1 "stages" ("\n".intercalate (p.jobs.map stageText))) _ :=
    reads_block (by decide) (by decide) (reads_intercalate hstages) 1
  have hopen : Reads (line 0 "pipeline \x7b") id := reads_aside (by decide) (by decide) 0
  have hopening : line 0 "pipeline \x7b" = "pipeline \x7b\n" := by decide
  rw [hopening] at hopen
  have hagent : Reads (line 1 "agent any") id := reads_aside (by decide) (by decide) 1
  have hfile := ((((hopen.append hagent).append reads_empty).append henvironment).append
    hstages).append (reads_brace 0)
  exact hfile.contents_eq

/-- A pipeline that was written for Jenkins is read back with its jobs joined to one. -/
theorem read_write_jenkins {p : Pipeline} (h : Writable p) (settings : Settings) :
    read settings (write p) = said settings p := by
  have hcontents := contents_write (reads_environmentBlock h.environment 1)
    fun j hj => reads_stageText (h.jobs j hj)
  have hvars : Contents.empty.environment.insertAll p.environment.entries = p.environment :=
    Vars.ofList_entries p.environment
  simp only [read, hcontents, foldl_addStage]
  rw [hvars]
  rfl

/-- A pipeline with quotes and fences in its commands, and a variable that two places set. -/
def tangledStages : Pipeline where
  name := "CI"
  triggers := [.on .manual]
  environment := ⟨[("MODE", "it's"), ("_A1", "\\")], by decide⟩
  jobs := [
    { Job.new "lint \x7b" "ubuntu-latest" with
      environment := ⟨[("MODE", "\\'\x7d ")], by decide⟩
      steps := [.uses "actions/checkout@v4", .run "sh '''\n\n", .run " \n"]
      condition := some "ref ==\n'main'" },
    { Job.new "test's" "rust:1.80" with
      dependsOn := ["lint \x7b", "image 'a'"]
      steps := [((Step.run "  if a\n \t\n    '''\n\t\tfi'").setEnv "A B" "'").inDirectory "s'"] }]

theorem writable_tangledStages : Writable tangledStages where
  environment := by decide
  jobs j hj := by
    rcases List.mem_cons.1 hj with rfl | hj
    · refine ⟨by decide, by decide, by decide, by decide, fun s hs => ?_⟩
      rcases List.mem_cons.1 hs with rfl | hs
      · exact ⟨by decide, by decide, by decide⟩
      rcases List.mem_cons.1 hs with rfl | hs
      · exact ⟨by decide, by decide, by decide⟩
      rcases List.mem_singleton.1 hs with rfl
      exact ⟨by decide, by decide, by decide⟩
    · rcases List.mem_singleton.1 hj with rfl
      refine ⟨by decide, by simp [Job.new, isQuote], by decide, by decide, fun s hs => ?_⟩
      rcases List.mem_singleton.1 hs with rfl
      exact ⟨by decide, by decide, by decide⟩

theorem read_write_tangledStages : read {} (write tangledStages) =
    { name := "Pipeline"
      triggers := [.on .push]
      environment := ⟨[("MODE", "\\'\x7d "), ("_A1", "\\")], by decide⟩
      jobs := [{ Job.new "build" "rust:1.80" with
        steps := [.run "sh '''", .run "if a\n\n  '''\nfi'"] }] } :=
  (read_write_jenkins writable_tangledStages {}).trans (by decide)

end Jenkins
end CiPipelines

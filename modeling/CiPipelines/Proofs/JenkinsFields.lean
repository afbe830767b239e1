import CiPipelines.Proofs.JenkinsRoundTrip

/-!
# Fields around the commands of a Jenkinsfile

Of a Jenkinsfile the commands are read that the pipeline has, whatever stands in its other fields,
if each of them takes one line and no variable has a name that starts with a closing brace.  Behind
a line feed a field goes on outside its quotes or its comment, and a brace ends the variables; in
either case a field may bring in commands of its own.
-/

namespace CiPipelines
namespace Jenkins

/-! ## Variables -/

/-- A variable that stays on its line and in its block. -/
def IsConfined (e : String × String) : Prop :=
  '\n' ∉ e.1.toList ∧ '\n' ∉ e.2.toList ∧ (skipSpace e.1.toList).head? ≠ some '\x7d'

instance (e : String × String) : Decidable (IsConfined e) :=
  inferInstanceAs (Decidable (_ ∧ _ ∧ _))

/-- What the line of a variable does to variables. -/
def setVariable (vars : Vars) (e : String × String) : Vars :=
  match assignment? (skipSpace (variableLine e)) with
  | some (name, value) => vars.insert name value
  | none => vars

theorem head?_variableLine {e : String × String} (h : IsConfined e) :
    (skipSpace (variableLine e)).head? ≠ some '\x7d' := by
  have hname := h.2.2
  rw [skipSpace] at hname ⊢
  rw [variableLine, List.append_assoc, List.dropWhile_append]
  split
  · -- The line of a name that is blank starts with the equals sign.
    show some '=' ≠ some '\x7d'
    decide
  · rename_i hsome
    obtain ⟨first, rest, hrest⟩ :=
      List.exists_cons_of_ne_nil fun hnil => hsome (List.isEmpty_iff.2 hnil)
    rw [hrest] at hname ⊢
    exact hname

theorem getLast?_skipSpace_variableLine (e : String × String) :
    (skipSpace (variableLine e)).getLast? = some '\'' := by
  obtain ⟨before, hbefore⟩ := List.getLast?_eq_some_iff.1 (getLast?_variableLine e)
  rw [hbefore, skipSpace, List.dropWhile_append]
  split
  · rfl
  · exact List.getLast?_concat ..

/-- The line of a confined variable sets a variable at most. -/
theorem readLine_confined {e : String × String} (h : IsConfined e) (width : Nat) (c : Contents) :
    Contents.readLine { c with mode := .environment 1 }
        (Text.dropLastChar '\r' (List.replicate width ' ' ++ variableLine e)) =
      { c with mode := .environment 1, environment := setVariable c.environment e } := by
  rw [Contents.readLine]
  dsimp only
  rw [trim_line_start (getLast?_variableLine e) (by decide), ← skipSpace, Contents.readVariableLine,
    getLast?_skipSpace_variableLine, if_neg (by decide),
    if_neg (by simpa using head?_variableLine h), setVariable]
  cases assignment? (skipSpace (variableLine e)) <;> rfl

theorem foldl_confinedLines {entries : List (String × String)} (h : ∀ e ∈ entries, IsConfined e)
    (width : Nat) (c : Contents) :
    (entries.map fun e => Text.dropLastChar '\r'
        (List.replicate width ' ' ++ variableLine e)).foldl Contents.readLine
        { c with mode := .environment 1 } =
      { c with
        mode := .environment 1
        environment := entries.foldl setVariable c.environment } := by
  induction entries generalizing c with
  | nil => rfl
  | cons e entries ih =>
    rw [List.map_cons, List.foldl_cons, readLine_confined (h e (List.mem_cons_self ..))]
    exact ih (fun e he => h e (List.mem_cons_of_mem _ he))
      { c with environment := setVariable c.environment e }

/-! ## Stages -/

/-- A job whose fields, other than commands and its condition, take one line. -/
structure ConfinedJob (j : Job) : Prop where
  name : '\n' ∉ j.name.toList
  runner : '\n' ∉ j.runsOn.toList
  needs : ∀ name ∈ j.dependsOn, '\n' ∉ name.toList
  environment : ∀ e ∈ j.environment.entries, IsConfined e
  steps : ∀ s ∈ j.steps, WritableStep s

instance (j : Job) : Decidable (ConfinedJob j) :=
  decidable_of_iff
    ('\n' ∉ j.name.toList ∧ '\n' ∉ j.runsOn.toList ∧ (∀ name ∈ j.dependsOn, '\n' ∉ name.toList) ∧
      (∀ e ∈ j.environment.entries, IsConfined e) ∧ ∀ s ∈ j.steps, WritableStep s)
    ⟨fun ⟨hname, hrunner, hneeds, henv, hsteps⟩ => ⟨hname, hrunner, hneeds, henv, hsteps⟩,
      fun h => ⟨h.name, h.runner, h.needs, h.environment, h.steps⟩⟩

/-- The image that is read of the container of a job, if there is one. -/
def readImage? (j : Job) : Option String :=
  if j.runsOnImage then dockerImage? ("image ".toList ++ (quote j.runsOn).toList) else none

/-- What the stage of a job does to contents. -/
def readStage (c : Contents) (j : Job) : Contents :=
  { c with
    commands := c.commands ++ saidCommands j
    environment := j.environment.entries.foldl setVariable c.environment
    image := c.image.or (readImage? j) }

theorem reads_agentBlock_confined {j : Job} (h : '\n' ∉ j.runsOn.toList) :
    Reads (agentBlock j) fun c => { c with image := c.image.or (readImage? j) } := by
  rw [agentBlock, readImage?]
  split
  · have hdocker : Reads (block 4 "docker" (line 5 ("image " ++ quote j.runsOn))) _ :=
      reads_block (by decide) (by decide) (reads_image h 5) 4
    exact reads_block (by decide) (by decide) hdocker 3
  · exact Reads.nil.congr fun c _ => by simp

theorem reads_stageText_confined {j : Job} (h : ConfinedJob j) :
    Reads (stageText j) fun c => readStage c j :=
  reads_stage h.name (reads_agentBlock_confined h.runner) (reads_needs h.needs)
    (reads_environment (fun vars => j.environment.entries.foldl setVariable vars)
      (fun e he => lineFeed_not_mem_variableLine (h.environment e he).1 (h.environment e he).2.1)
      (foldl_confinedLines h.environment _))
    (reads_stepsText h.steps)

/-! ## Whole files -/

/-- A pipeline whose fields, other than commands and conditions, take one line. -/
structure Confined (p : Pipeline) : Prop where
  environment : ∀ e ∈ p.environment.entries, IsConfined e
  jobs : ∀ j ∈ p.jobs, ConfinedJob j

theorem commands_foldl_readStage (jobs : List Job) (c : Contents) :
    (jobs.foldl readStage c).commands = c.commands ++ jobs.flatMap saidCommands := by
  induction jobs generalizing c with
  | nil => exact (List.append_nil _).symm
  | cons j jobs ih => rw [List.foldl_cons, ih, readStage, List.flatMap_cons, List.append_assoc]

/-- Of a written file the commands are read that the pipeline has. -/
theorem commands_contents_write {p : Pipeline} (h : Confined p) :
    (contents (write p).toList).commands = p.jobs.flatMap saidCommands := by
  have henvironment := reads_environment (fun vars => p.environment.entries.foldl setVariable vars)
    (fun e he => lineFeed_not_mem_variableLine (h.environment e he).1 (h.environment e he).2.1)
    (foldl_confinedLines h.environment (4 * (1 + 1)))
  rw [contents_write henvironment fun j hj => reads_stageText_confined (h.jobs j hj),
    commands_foldl_readStage]
  rfl

/-- A file is read as one job, whose steps run the commands of the file. -/
theorem steps_read (settings : Settings) (text : String) :
    (read settings text).jobs.map (·.steps) = [stepsOf (contents text.toList).commands] := rfl

/-- The steps that are read of a written file run the commands of the pipeline, job after job and
step after step. -/
theorem steps_read_write {p : Pipeline} (h : Confined p) (settings : Settings) :
    (read settings (write p)).jobs.map (·.steps) = [stepsOf (p.jobs.flatMap saidCommands)] := by
  rw [steps_read, commands_contents_write h]

theorem flatMap_saidCommands (jobs : List Job) :
    jobs.flatMap saidCommands = (jobs.flatMap Job.fullCommands).map normalCommand :=
  List.map_flatMap.symm

/-- A command of one line is read back as it is. -/
theorem normalCommand_of_line {command : String} (h : '\n' ∉ command.toList) :
    normalCommand command = command.toList := by
  have hkept : Text.dropEndWhile (· == '\n') command.toList = command.toList :=
    List.rdropWhile_eq_self_iff.2 fun hne hlast =>
      h (beq_iff_eq.1 hlast ▸ List.getLast_mem hne)
  rw [normalCommand, hkept]
  exact if_neg (by simpa using h)

/-- Where no command takes several lines, the steps that are read of a written file run the commands
of the pipeline that are not blank, each as it is.  Without commands there is one step, which asks
for a review. -/
theorem steps_read_write_lines {p : Pipeline} (h : Confined p)
    (hlines : ∀ command ∈ p.jobs.flatMap Job.fullCommands, '\n' ∉ command.toList)
    (settings : Settings) : (read settings (write p)).jobs.map (·.steps) =
      [if p.jobs.flatMap Job.fullCommands = [] then [placeholder]
        else (p.jobs.flatMap Job.fullCommands).map .run] := by
  have hsaid : p.jobs.flatMap saidCommands =
      (p.jobs.flatMap Job.fullCommands).map String.toList :=
    (flatMap_saidCommands p.jobs).trans <|
      List.map_congr_left fun command hcommand => normalCommand_of_line (hlines command hcommand)
  rw [steps_read_write h, hsaid, stepsOf]
  simp [List.isEmpty_iff, Function.comp_def]

/-- A pipeline whose fields look like parts of a Jenkinsfile. -/
def bracedFields : Pipeline where
  name := "CI"
  triggers := []
  environment := ⟨[("LIST", "\x7d"), ("sh 'date' # ", "\\'")], by decide⟩
  jobs := [
    { Job.new "it's \x7b" "alpine:3' \x7b" with
      dependsOn := ["sh 'date'", "\x7d"]
      environment := ⟨[("A", "environment \x7b")], by decide⟩
      steps := [.run " ", (Step.run "make '\x7b'").inDirectory "web'\x7d"] },
    { Job.new "stage('x') \x7b" "linux" with
      condition := some "true\n\x7d\nsh 'date'"
      steps := [.uses "actions/checkout@v4", .run "sh 'date'"] }]

theorem steps_read_write_bracedFields : Confined bracedFields ∧
    (∀ command ∈ bracedFields.jobs.flatMap Job.fullCommands, '\n' ∉ command.toList) ∧
    (read {} (write bracedFields)).jobs.map (·.steps) =
      [[.run "make '\x7b'", .run "sh 'date'"]] := by
  have hconfined : Confined bracedFields := ⟨by decide, by decide⟩
  have hlines : ∀ command ∈ bracedFields.jobs.flatMap Job.fullCommands, '\n' ∉ command.toList := by
    decide
  exact ⟨hconfined, hlines, steps_read_write_lines hconfined hlines {}⟩

/-- Pipelines with the same commands are read back with the same steps, whatever stands in their
other fields. -/
theorem steps_read_write_congr {p q : Pipeline} (hp : Confined p) (hq : Confined q)
    (hsame : p.jobs.flatMap Job.fullCommands = q.jobs.flatMap Job.fullCommands)
    (settings : Settings) : (read settings (write p)).jobs.map (·.steps) =
      (read settings (write q)).jobs.map (·.steps) := by
  rw [steps_read_write hp, steps_read_write hq, flatMap_saidCommands, flatMap_saidCommands, hsame]

/-- A job that needs one with a name of two lines. -/
def looseJob : Job :=
  { Job.new "deploy" "linux" with
    dependsOn := ["build\nsh 'rm -rf data'"]
    steps := [.run "make"] }

/-- What stands behind the line feed is read as a command. -/
theorem reads_looseJob : Reads (stageText looseJob) fun c =>
    { c with commands := c.commands ++ ["rm -rf data".toList, "make".toList] } := by
  have hneeds : Reads (if looseJob.dependsOn.isEmpty then ""
      else line 3 ("// needs: " ++ ", ".intercalate looseJob.dependsOn)) fun c =>
        c.addCommand "rm -rf data".toList := by
    have hlines : line 3 ("// needs: " ++ ", ".intercalate looseJob.dependsOn) =
        line 3 "// needs: build" ++
          line 0 ("sh " ++ quote (String.ofList "rm -rf data".toList)) := by decide +kernel
    rw [if_neg (by decide), hlines]
    exact (reads_aside (by decide) (by decide) 3).append (reads_shellLine (by decide) (by decide) 0)
  have hsteps : ∀ s ∈ looseJob.steps, WritableStep s := by decide
  have hagent : Reads (agentBlock looseJob) id := Reads.nil
  have henvironment : Reads (environmentBlock 3 looseJob.environment) id := Reads.nil
  have hcommands : (looseJob.steps.filterMap Step.fullCommand?).map normalCommand =
      ["make".toList] := by decide
  refine (reads_stage (by decide) hagent hneeds henvironment (reads_stepsText hsteps)).congr
    fun c hmode => ?_
  simp only [hcommands, id, Contents.addCommand, List.append_assoc, List.singleton_append, hmode]

/-- So a pipeline may be read back with more commands than it has. -/
theorem steps_read_write_looseJob {p : Pipeline} (henvironment : p.environment = .empty)
    (hjobs : p.jobs = [looseJob]) (settings : Settings) :
    (read settings (write p)).jobs.map (·.steps) = [[.run "rm -rf data", .run "make"]] ∧
      p.jobs.flatMap saidCommands = ["make".toList] := by
  have hvariables : Reads (environmentBlock 1 p.environment) id := by
    rw [henvironment]
    exact Reads.nil
  have hcontents := contents_write (g := fun c _ => { c with
      commands := c.commands ++ ["rm -rf data".toList, "make".toList] }) hvariables (by
    rw [hjobs]
    exact List.forall_mem_singleton.2 reads_looseJob)
  rw [steps_read, hcontents, hjobs]
  decide +kernel

/-- A pipeline of that job alone. -/
def looseNeeds : Pipeline where
  name := "CI"
  triggers := [.on .push]
  environment := .empty
  jobs := [looseJob]

theorem steps_read_write_looseNeeds :
    looseNeeds.jobs.flatMap Job.fullCommands = ["make"] ∧
    (read {} (write looseNeeds)).jobs.map (·.steps) = [[.run "rm -rf data", .run "make"]] :=
  ⟨by decide, (steps_read_write_looseJob rfl rfl {}).1⟩

end Jenkins
end CiPipelines

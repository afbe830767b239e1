import CiPipelines.Proofs.CircleciNormalForm
import CiPipelines.Proofs.KeyLengths
import CiPipelines.Proofs.NodeTexts
import CiPipelines.Proofs.WorkflowRequirements
import Mathlib.Data.List.Forall2

/-!
# Commands of orbs

A step of a CircleCI file that is none of CircleCI itself is a command, of an orb or of the file.  A
file of ordinary texts and short keys is read as a pipeline that can be written, and what is written
can be read again.  It has the same commands with the same inputs, in the same order, but for those
whose names mention a checkout: the writer takes these for the checkout of the repository.
-/

namespace CiPipelines
namespace Circleci

open Outline

/-! ## What is read can be written -/

/-- A key that can be written and read: an ordinary text, short, and no merge key. -/
def IsFileKey (key : String) : Prop := Text.Ordinary key ∧ IsFieldName key

instance : DecidablePred IsFileKey := fun key =>
  inferInstanceAs (Decidable (Text.Ordinary key ∧ IsFieldName key))

theorem IsFileKey.fits {key : String} (h : IsFileKey key) : keyFits key = true :=
  keyFits_of_isFieldName h.1 h.2

section

variable {n : Node} (h : n.Holds Text.Ordinary IsFileKey)

include h

theorem soundVars_vars : SoundVars n.vars := by
  obtain ⟨hnames, hvalues⟩ := h.vars (by decide)
  exact ⟨fun name hname => ⟨(hnames name hname).1, (hnames name hname).2.2⟩, hvalues⟩

theorem fits_vars : n.vars.names.all keyFits = true :=
  List.all_eq_true.2 fun name hname => ((h.vars (by decide)).1 name hname).fits

theorem soundVars_varsAt (key : String) : SoundVars (n.varsAt key) := by
  obtain ⟨hnames, hvalues⟩ := h.varsAt (by decide) key
  exact ⟨fun name hname => ⟨(hnames name hname).1, (hnames name hname).2.2⟩, hvalues⟩

theorem fits_varsAt (key : String) : (n.varsAt key).names.all keyFits = true :=
  List.all_eq_true.2 fun name hname => ((h.varsAt (by decide) key).1 name hname).fits

end

/-- A step that runs a command can be written. -/
theorem writableStep_run {name : Option String} {command : String} {env : Vars}
    {directory : Option String} (hname : ∀ t ∈ name, Text.Ordinary t)
    (hcommand : Text.Ordinary command) (henv : SoundVars env)
    (hdirectory : ∀ t ∈ directory, Text.Ordinary t) :
    WritableStep ⟨name, .run command, env, none, directory⟩ where
  texts := Step.forall_texts.2 ⟨hname, List.forall_mem_singleton.2 hcommand,
    texts_of_soundVars henv, fun _ ht => absurd ht (Option.not_mem_none _), hdirectory⟩
  variableNames hmem := (henv.names _ hmem).2 rfl
  inputNames := List.not_mem_nil
  action hne := absurd rfl hne

/-- A step that uses an action can be written. -/
theorem writableStep_uses {id : String} {inputs : Vars} (hid : Text.Ordinary id)
    (hinputs : SoundVars inputs) (hmerge : inputs.names ≠ [] → id ≠ "<<") :
    WritableStep (.ofAction (.uses id inputs)) where
  texts := Step.forall_texts.2 ⟨fun _ ht => absurd ht (Option.not_mem_none _),
    List.forall_mem_cons.2 ⟨hid, texts_of_soundVars hinputs⟩,
    fun _ ht => absurd ht List.not_mem_nil, fun _ ht => absurd ht (Option.not_mem_none _),
    fun _ ht => absurd ht (Option.not_mem_none _)⟩
  variableNames := List.not_mem_nil
  inputNames hmem := (hinputs.names _ hmem).2 rfl
  action hne heq := hmerge hne (Option.some.inj heq)

namespace Contents.Writable

variable {c : Contents} (h : c.Writable)

include h

theorem addRun {name : Option String} {command : String} {env : Vars} {directory : Option String}
    (hname : ∀ t ∈ name, Text.Ordinary t) (hcommand : Text.Ordinary command)
    (henv : SoundVars env) (hfits : env.names.all keyFits = true)
    (hdirectory : ∀ t ∈ directory, Text.Ordinary t) :
    (c.addStep ⟨name, .run command, env, none, directory⟩).Writable := by
  refine h.addStep (writableStep_run hname hcommand henv hdirectory) ?_
  refine List.all_eq_true.2 fun key hkey => ?_
  rcases mem_stepKeys hkey with hmem | hmem | ⟨hne, -⟩
  · exact List.all_eq_true.1 hfits key hmem
  · exact absurd hmem List.not_mem_nil
  · exact absurd rfl hne

theorem addUses {id : String} {inputs : Vars} (hid : Text.Ordinary id) (hinputs : SoundVars inputs)
    (hfits : inputs.names.all keyFits = true) (hkey : inputs.names ≠ [] → IsFieldName id) :
    (c.addStep (.ofAction (.uses id inputs))).Writable := by
  refine h.addStep (writableStep_uses hid hinputs fun hne => (hkey hne).2) ?_
  refine List.all_eq_true.2 fun key hmem => ?_
  rcases mem_stepKeys hmem with hmem | hmem | ⟨hne, heq⟩
  · exact absurd hmem List.not_mem_nil
  · exact List.all_eq_true.1 hfits key hmem
  · obtain rfl : id = key := Option.some.inj heq
    exact keyFits_of_isFieldName hid (hkey hne)

variable {body : Node} (hbody : body.Holds Text.Ordinary IsFileKey)

include hbody

/-- A `run` step is read as one that can be written. -/
theorem addReadRun : (c.addStep (readRun body)).Writable := by
  have hfields : (c.addStep ⟨body.textAt? "name", .run ((body.textAt? "command").getD ""),
      body.varsAt "environment", none, body.textAt? "working_directory"⟩).Writable :=
    h.addRun (hbody.textAt? "name") (hbody.textAt?_getD "command" (by decide))
      (soundVars_varsAt hbody "environment") (fits_varsAt hbody "environment")
      (hbody.textAt? "working_directory")
  cases body with
  | scalar command =>
    have hnone : ∀ t ∈ (none : Option String), Text.Ordinary t :=
      fun t ht => absurd ht (Option.not_mem_none t)
    exact h.addRun hnone (hbody.text? command rfl) soundVars_empty rfl hnone
  | null => exact hfields
  | list items => exact hfields
  | fields entries => exact hfields

/-- What is read of a step with a body can be written. -/
theorem readField {kind : String} (hkind : IsFileKey kind) :
    (readField c kind body).Writable := by
  apply readField_cases (motive := Contents.Writable)
  case run => exact fun _ => h.addReadRun hbody
  case checkout => exact fun _ => h.addCheckout
  case cache =>
    intro _
    refine h.addCaches (List.forall_mem_singleton.2 (List.forall_mem_cons.2 ⟨?_, ?_⟩))
    · exact hbody.textAt?_getD "key" (by decide)
    · exact hbody.textsAt "paths"
  case artifact =>
    intro _ path hpath
    exact h.addArtifact (hbody.textAt?_getD "destination" (by decide))
      (hbody.textAt? "path" path hpath)
  case nothing => exact h
  case command =>
    exact fun _ => h.addUses hkind.1 (soundVars_vars hbody) (fits_vars hbody) fun _ => hkind.2

/-- What is read of an item can be written. -/
theorem readItem : (Circleci.readItem c body).Writable := by
  cases body with
  | scalar name =>
    show (c.addStep (if name == "checkout" then checkout else .uses name)).Writable
    split
    · exact h.addCheckout
    · exact h.addUses (hbody.text? name rfl) soundVars_empty rfl fun hne => absurd rfl hne
  | fields entries =>
    exact List.foldlRecOn (motive := Contents.Writable) _ _ h fun c hc e he =>
      hc.readField (hbody.entries e he).2 (hbody.entries e he).1
  | null => exact h
  | list items => exact h

end Contents.Writable

/-- What is read of the steps of a job can be written. -/
theorem writable_readItems {items : List Node}
    (h : ∀ n ∈ items, n.Holds Text.Ordinary IsFileKey) :
    (items.foldl readItem .empty).Writable :=
  List.foldlRecOn (motive := Contents.Writable) _ _ writable_empty fun _ hc n hn =>
    hc.readItem (h n hn)

/-- A service is read as one that can be written. -/
theorem writable_readService? {n : Node} (h : n.Holds Text.Ordinary IsFileKey) {s : Service}
    (hs : s ∈ readService? n) :
    Text.Ordinary s.image ∧ SoundVars s.env ∧ s.env.names.all keyFits = true := by
  obtain ⟨image, himage, rfl⟩ := Option.map_eq_some_iff.1 (Option.mem_def.1 hs)
  exact ⟨h.textAt? "image" image himage, soundVars_varsAt h "environment",
    fits_varsAt h "environment"⟩

section

variable {settings : Settings} (hrunner : Text.Ordinary settings.defaultRunner) (name : String)
  {body : Node} (hbody : body.Holds Text.Ordinary IsFileKey)

include hbody

/-- The services of a job are read of its images. -/
theorem writable_services {s : Service}
    (hs : s ∈ (readJob settings name body).services) :
    Text.Ordinary s.image ∧ SoundVars s.env ∧ s.env.names.all keyFits = true := by
  obtain ⟨n, hn, hs⟩ := List.mem_filterMap.1 hs
  exact writable_readService? (hbody.itemsAt "docker" n (List.mem_of_mem_tail hn)) hs

theorem writable_contents : ((body.itemsAt "steps").foldl readItem .empty).Writable :=
  writable_readItems (hbody.itemsAt "steps")

include hrunner

/-- A job is read as one that can be written. -/
theorem writableJob_readJob : WritableJob (readJob settings name body) where
  runner := by
    show Text.Ordinary (((body.itemsAt "docker").head?.bind fun node =>
      node.textAt? "image").getD settings.defaultRunner)
    cases himages : body.itemsAt "docker" with
    | nil => exact hrunner
    | cons image images =>
      have himage := hbody.itemsAt "docker" image (himages ▸ List.mem_cons_self ..)
      exact himage.textAt?_getD "image" hrunner
  environment := soundVars_varsAt hbody "environment"
  services s hs :=
    ⟨(writable_services name hbody hs).1, (writable_services name hbody hs).2.1⟩
  steps := (writable_contents hbody).writable
  artifacts := (writable_contents hbody).artifacts
  cache := (writable_contents hbody).cache

end

section

variable {settings : Settings} (hrunner : Text.Ordinary settings.defaultRunner) {root : Node}
  (hroot : root.Holds Text.Ordinary IsFileKey) (hnames : ((jobEntries root).map (·.1)).Nodup)

include hroot hnames

/-- The jobs of a file, each without the names that the workflows require for it. -/
theorem forall_jobs_ofNode {P : Job → Prop}
    (h : ∀ name body dependsOn, IsFileKey name → body.Holds Text.Ordinary IsFileKey →
      P { readJob settings name body with dependsOn }) :
    ∀ j ∈ (ofNode settings root).jobs, P j := by
  intro j hj
  rw [jobs_ofNode settings hnames] at hj
  obtain ⟨⟨name, body⟩, hentry, rfl⟩ := List.mem_map.1 hj
  have hfile := hroot.entriesAt "jobs" (name, body) (List.mem_filter.1 hentry).1
  exact h name body _ hfile.1 hfile.2

include hrunner in
/-- A file of ordinary texts and short keys is read as a pipeline that can be written. -/
theorem writable_ofNode : Writable (ofNode settings root) where
  names := by
    rw [jobs_ofNode settings hnames, List.map_map]
    exact hnames
  environment := soundVars_empty
  jobs := forall_jobs_ofNode hroot hnames fun name _ _ _ hbody =>
    have hjob := writableJob_readJob hrunner name hbody
    ⟨hjob.runner, hjob.environment, hjob.services, hjob.steps, hjob.artifacts, hjob.cache⟩

/-- What is written for the pipeline of a file of ordinary texts and short keys has short keys. -/
theorem fits_ofNode (hcount : (ofNode settings root).jobs.length < 2 ^ 64) :
    fits (ofNode settings root) = true := by
  refine Bool.and_eq_true_iff.2 ⟨keyFits_workflowName_pipeline, List.all_eq_true.2 ?_⟩
  refine forall_jobs_ofNode hroot hnames fun name body dependsOn hname hbody => ?_
  simp only [jobKeys, List.all_eq_true, List.forall_mem_append, List.forall_mem_cons]
  refine ⟨⟨⟨?_, fun own hown => ?_⟩, fun own hown => ?_⟩, fun key hkey => ?_⟩
  · exact keyFits_key KeyRules.sound_standard KeyRules.length_cleanName_le hcount hname.2.1
  · obtain ⟨s, hs, hown⟩ := List.mem_flatMap.1 hown
    exact List.all_eq_true.1 (writable_services name hbody hs).2.2 own hown
  · -- A file has no environment of its own, so each variable is one of the job.
    have hmem := (Vars.mem_names_insertAll hown).resolve_left List.not_mem_nil
    exact List.all_eq_true.1 (fits_varsAt hbody "environment") own hmem
  · obtain ⟨s, hs, hkey⟩ := List.mem_flatMap.1 hkey
    exact List.all_eq_true.1 ((writable_contents hbody).fits s hs) key hkey

end

/-! ## Commands -/

/-- The command that a step is, with its inputs: an action that is not blank and neither a reference
with a version nor a path of its own. -/
def orbCommand? (s : Step) : Option (String × Vars) :=
  match s.action with
  | .uses id inputs => if !s.isVoid && isCommand id then some (id, inputs) else none
  | .run _ => none

/-- The commands among the steps of a job. -/
def orbCommands (j : Job) : List (String × Vars) := j.steps.filterMap orbCommand?

/-- Whether a command is not taken for a checkout. -/
def staysCommand (command : String × Vars) : Bool :=
  !Text.occursIn "checkout".toList command.1.toList

/-- A step that is read of a file. -/
inductive ReadStep : Step → Prop where
  | checkout : ReadStep checkout
  | run {name : Option String} {command : String} {env : Vars} {directory : Option String} :
      ReadStep ⟨name, .run command, env, none, directory⟩
  | uses {id : String} {inputs : Vars} (hid : inputs.isEmpty = false → id ∉ builtInSteps) :
      ReadStep (.ofAction (.uses id inputs))

/-- A step with a body is read as a step of a file. -/
theorem readStep_of_mem_readField {c : Contents} {kind : String} {body : Node} {s : Step}
    (h : s ∈ (readField c kind body).steps) : s ∈ c.steps ∨ ReadStep s := by
  have hadd : ∀ {t : Step}, ReadStep t → s ∈ (c.addStep t).steps → s ∈ c.steps ∨ ReadStep s := by
    intro t ht hmem
    rcases List.mem_append.1 hmem with hmem | hmem
    · exact .inl hmem
    · exact .inr (List.mem_singleton.1 hmem ▸ ht)
  revert h
  apply readField_cases (motive := fun d : Contents => s ∈ d.steps → s ∈ c.steps ∨ ReadStep s)
  case run =>
    intro _
    apply hadd
    cases body with
    | _ => exact .run
  case checkout => exact fun _ => hadd .checkout
  case cache => exact fun _ => .inl
  case artifact => exact fun _ _ _ => .inl
  case nothing => exact .inl
  case command => exact fun hid => hadd (.uses fun _ => hid)

theorem readStep_of_mem_readItem {c : Contents} {n : Node} {s : Step}
    (hc : ∀ s ∈ c.steps, ReadStep s) (h : s ∈ (readItem c n).steps) : ReadStep s := by
  cases n with
  | scalar name =>
    rcases List.mem_append.1 h with h | h
    · exact hc s h
    · rw [List.mem_singleton.1 h]
      split
      · exact .checkout
      · exact .uses fun hne => absurd hne (by decide)
  | fields entries =>
    -- An item can have several fields, each of which is a step.
    revert s
    exact List.foldlRecOn (motive := fun c : Contents => ∀ {s}, s ∈ c.steps → ReadStep s) _ _
      (fun h => hc _ h) fun c hc e _ s h => (readStep_of_mem_readField h).elim hc id
  | null => exact hc s h
  | list items => exact hc s h

/-- All steps of a job are read of its items. -/
theorem readStep_readJob (settings : Settings) (name : String) (body : Node) :
    ∀ s ∈ (readJob settings name body).steps, ReadStep s :=
  List.foldlRecOn (motive := fun c : Contents => ∀ s ∈ c.steps, ReadStep s) _ _
    (fun _ h => absurd h List.not_mem_nil) fun _ hc _ _ _ h => readStep_of_mem_readItem hc h

/-! ## Commands that are said -/

/-- What is said of a step that was read adds the command that it is, unless that is taken for a
checkout. -/
theorem orbCommands_addSaid (c : Contents) {s : Step} (h : ReadStep s) :
    (addSaid c s).steps.filterMap orbCommand? =
      c.steps.filterMap orbCommand? ++ (orbCommand? s).toList.filter staysCommand := by
  have hadd : ∀ t : Step, (c.addStep t).steps.filterMap orbCommand? =
      c.steps.filterMap orbCommand? ++ (orbCommand? t).toList := by
    intro t
    show (c.steps ++ [t]).filterMap orbCommand? = _
    rw [List.filterMap_append]
    cases h : orbCommand? t <;> simp [h]
  cases h with
  | checkout => exact hadd checkout
  | @run name command env directory =>
    unfold addSaid
    split
    · exact (List.append_nil _).symm
    · exact hadd ⟨name, .run command, env, none, directory⟩
  | @uses id inputs hid =>
    have horb : orbCommand? (.ofAction (.uses id inputs)) =
        if !Text.isBlank id.toList && isCommand id then some (id, inputs) else none := rfl
    have hstays : ∀ {b : Bool}, Text.occursIn "checkout".toList id.toList = b →
        [(id, inputs)].filter staysCommand = if b then [] else [(id, inputs)] := by
      intro b hb
      rw [List.filter_cons, staysCommand, hb]
      cases b <;> rfl
    rw [addSaid_uses c hid]
    split
    · rename_i hblank
      rw [horb, hblank]
      exact (List.append_nil _).symm
    split
    · -- The action is taken for a checkout, so a command that it is gets lost.
      rename_i hcheckout
      have hlost : (orbCommand? (.ofAction (.uses id inputs))).toList.filter staysCommand = [] := by
        rw [horb]
        split
        · exact hstays hcheckout
        · rfl
      rw [hadd, hlost]
      rfl
    split
    · rename_i hblank hcheckout hcommand
      rw [Bool.not_eq_true] at hblank hcheckout
      rw [hadd, horb, hblank, hcommand]
      exact congrArg (_ ++ ·) (hstays hcheckout).symm
    · rename_i hcommand
      rw [horb, if_neg (by simp [hcommand])]
      exact (List.append_nil _).symm

theorem orbCommands_foldl_addSaid {steps : List Step} (h : ∀ s ∈ steps, ReadStep s)
    (c : Contents) : (steps.foldl addSaid c).steps.filterMap orbCommand? =
      c.steps.filterMap orbCommand? ++ (steps.filterMap orbCommand?).filter staysCommand := by
  induction steps generalizing c with
  | nil => exact (List.append_nil _).symm
  | cons s steps ih =>
    have hrest := ih (fun s hs => h s (List.mem_cons_of_mem _ hs)) (addSaid c s)
    rw [List.foldl_cons, hrest, orbCommands_addSaid c (h s (List.mem_cons_self ..)),
      List.append_assoc, ← List.filter_append, List.filterMap_cons]
    cases orbCommand? s <;> rfl

/-- A job that was read has its commands in what is written for it, but for those that are taken
for a checkout. -/
theorem orbCommands_saidJob (keys : KeyTable) (environment : Vars) {j : Job}
    (h : ∀ s ∈ j.steps, ReadStep s) :
    orbCommands (saidJob keys environment j) = (orbCommands j).filter staysCommand := by
  show (saidContents j).steps.filterMap orbCommand? = _
  rw [steps_saidContents, orbCommands_foldl_addSaid h]
  split <;> rfl

/-- A job keeps all its commands exactly if none of them is taken for a checkout. -/
theorem orbCommands_saidJob_iff (keys : KeyTable) (environment : Vars) {j : Job}
    (h : ∀ s ∈ j.steps, ReadStep s) :
    orbCommands (saidJob keys environment j) = orbCommands j ↔
      ∀ command ∈ orbCommands j, staysCommand command = true := by
  rw [orbCommands_saidJob keys environment h]
  exact List.filter_eq_self

/-- The checkout of an orb loses its input. -/
example : (addSaid .empty (.ofAction (.uses "git-shallow-clone/checkout"
    ⟨[("depth", "1")], by decide⟩))).steps = [checkout] := by decide

/-- The pipeline of a file of ordinary texts and short keys is written and read as the file of
CircleCI says it. -/
theorem read_write_ofNode {settings : Settings} (hrunner : Text.Ordinary settings.defaultRunner)
    {root : Node} (hroot : root.Holds Text.Ordinary IsFileKey)
    (hnames : ((jobEntries root).map (·.1)).Nodup) (hcount : (jobEntries root).length < 2 ^ 64) :
    read settings (write (ofNode settings root)) = .ok (said (ofNode settings root)) := by
  have hlength : (ofNode settings root).jobs.length = (jobEntries root).length := by
    rw [jobs_ofNode settings hnames, List.length_map]
  have hfits : fits (ofNode settings root) = true :=
    fits_ofNode hroot hnames (hlength ▸ hcount)
  rw [read_write_said (writable_ofNode hrunner hroot hnames) settings, if_pos hfits]

/-- A file of ordinary texts and short keys, whose jobs have names of their own, is read, written
and read again with the commands that its jobs had, but for those whose names mention a checkout. -/
theorem orbCommands_read_write {settings : Settings}
    (hrunner : Text.Ordinary settings.defaultRunner) {text : String} {root : Node}
    (htext : Node.ofPipelineFile text = .ok root) (hroot : root.Holds Text.Ordinary IsFileKey)
    (hnames : ((jobEntries root).map (·.1)).Nodup) (hcount : (jobEntries root).length < 2 ^ 64) :
    ∃ p q, read settings text = .ok p ∧ read settings (write p) = .ok q ∧
      List.Forall₂ (fun q j => orbCommands q = (orbCommands j).filter staysCommand)
        q.jobs p.jobs := by
  refine ⟨ofNode settings root, said (ofNode settings root), ?_,
    read_write_ofNode hrunner hroot hnames hcount, ?_⟩
  · rw [read, htext]
    rfl
  · rw [said, List.forall₂_map_left_iff, List.forall₂_same]
    refine forall_jobs_ofNode hroot hnames fun name body _ _ _ => ?_
    exact orbCommands_saidJob _ _ (readStep_readJob settings name body)

/-- A job that installs with an orb, with an input, and then runs a command of the file. -/
def nodeOrb : String :=
  "jobs:\n  build:\n    steps:\n    - node/install:\n        version: '20'\n    - test\n"

theorem orbCommands_read_write_nodeOrb : Text.Ordinary ({} : Settings).defaultRunner ∧
    ∃ root, Node.ofPipelineFile nodeOrb = .ok root ∧ root.Holds Text.Ordinary IsFileKey ∧
      ((jobEntries root).map (·.1)).Nodup ∧ (jobEntries root).length < 2 ^ 64 ∧
      ∃ p q, read {} nodeOrb = .ok p ∧ read {} (write p) = .ok q ∧
        List.Forall₂ (fun q j => orbCommands q = (orbCommands j).filter staysCommand)
          q.jobs p.jobs := by
  have hfile : (Node.ofPipelineFile nodeOrb).toOption.map (fun root =>
      (Node.holds Text.Ordinary IsFileKey root, (jobEntries root).map (·.1))) =
        some (true, ["build"]) := by decide +kernel
  obtain ⟨root, htext, hfacts⟩ := exists_ok_of_toOption hfile
  obtain ⟨hholds, hnames⟩ := Prod.mk.inj hfacts
  have hrunner : Text.Ordinary ({} : Settings).defaultRunner := by decide
  have hroot := Node.Holds.of_holds _ _ root hholds
  have hnodup : ((jobEntries root).map (·.1)).Nodup := hnames ▸ by decide
  have hcount : (jobEntries root).length < 2 ^ 64 := by
    rw [← List.length_map, hnames]
    decide
  exact ⟨hrunner, root, htext, hroot, hnodup, hcount,
    orbCommands_read_write hrunner htext hroot hnodup hcount⟩

/-- A job whose checkout is one of an orb, with an input. -/
def shallowClone : String :=
  "jobs:\n  build:\n    steps:\n    - git-shallow-clone/checkout:\n        depth: '1'\n"

/-- It is written as the plain checkout, and the command is gone. -/
theorem orbCommands_shallowClone : ∃ p q, read {} shallowClone = .ok p ∧
    read {} (write p) = .ok q ∧ q.jobs.map orbCommands = [[]] ∧
      p.jobs.map orbCommands = [[("git-shallow-clone/checkout", ⟨[("depth", "1")], by decide⟩)]] := by
  have hcommands : (read {} shallowClone).toOption.map (fun p =>
      (p.jobs.map orbCommands, (read {} (write p)).toOption.map (·.jobs.map orbCommands))) =
        some ([[("git-shallow-clone/checkout", ⟨[("depth", "1")], by decide⟩)]], some [[]]) := by
    decide +kernel
  obtain ⟨p, hp, heq⟩ := exists_ok_of_toOption hcommands
  obtain ⟨hown, hagain⟩ := Prod.mk.inj heq
  obtain ⟨q, hq, hlost⟩ := exists_ok_of_toOption hagain
  exact ⟨p, q, hp, hq, hlost, hown⟩

end Circleci
end CiPipelines

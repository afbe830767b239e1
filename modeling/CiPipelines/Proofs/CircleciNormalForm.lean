import CiPipelines.Proofs.CircleciRoundTrip

/-!
# What a CircleCI file says is said again

What a CircleCI file says is in normal form, but for steps with nothing to do: such a step is read
where an input of a command looks like a `run` step without a command.  These steps are not written,
so a file is written again as it is once it has been read and written.
-/

namespace CiPipelines
namespace Circleci

open Outline

/-! ## Contents that can be written -/

/-- Adding a path changes the artifact of the name, which is new if there is none. -/
theorem mem_addPath {name path : String} {artifacts : List Artifact} {a : Artifact}
    (h : a ∈ Contents.addPath name path artifacts) :
    a ∈ artifacts ∨ a.name = name ∧
      (a.paths = [path] ∨ ∃ old ∈ artifacts, a.paths = old.paths ++ [path]) := by
  induction artifacts with
  | nil =>
    obtain rfl := List.mem_singleton.1 h
    exact .inr ⟨rfl, .inl rfl⟩
  | cons first rest ih =>
    rw [Contents.addPath] at h
    split at h
    · rename_i hname
      rcases List.mem_cons.1 h with rfl | h
      · exact .inr ⟨hname, .inr ⟨first, List.mem_cons_self .., rfl⟩⟩
      · exact .inl (List.mem_cons_of_mem _ h)
    · rcases List.mem_cons.1 h with rfl | h
      · exact .inl (List.mem_cons_self ..)
      · refine (ih h).imp (List.mem_cons_of_mem _) (And.imp_right (Or.imp_right ?_))
        rintro ⟨old, hold, hpaths⟩
        exact ⟨old, List.mem_cons_of_mem _ hold, hpaths⟩

/-- Each artifact keeps a name of its own. -/
theorem map_name_addPath (name path : String) (artifacts : List Artifact) :
    (Contents.addPath name path artifacts).map (·.name) =
      if name ∈ artifacts.map (·.name) then artifacts.map (·.name)
      else artifacts.map (·.name) ++ [name] := by
  induction artifacts with
  | nil => simp [Contents.addPath]
  | cons a artifacts ih =>
    by_cases hname : a.name = name
    · simp [Contents.addPath, hname]
    · have hne : name ≠ a.name := fun heq => hname heq.symm
      simp only [Contents.addPath, if_neg hname, List.map_cons, ih, List.mem_cons, hne, false_or]
      split <;> simp

/-- A checkout can be written. -/
theorem writableStep_checkout : WritableStep checkout :=
  ⟨by decide, by decide, by decide, fun hne => absurd rfl hne⟩

theorem stepKeys_of_isCheckout {s : Step} (h : s.isCheckout = true) : stepKeys s = [] := by
  obtain ⟨name, action, env, condition, directory⟩ := s
  unfold stepKeys
  split
  · rfl
  cases action with
  | uses id inputs => rfl
  | run command => simp [Step.isCheckout, Step.actionId?] at h

/-- Contents of a job that can be written and read. -/
structure Contents.Writable (c : Contents) : Prop where
  writable : ∀ s ∈ c.steps, WritableStep s
  fits : ∀ s ∈ c.steps, (stepKeys s).all keyFits = true
  artifacts : ∀ a ∈ c.artifacts, ∀ t ∈ a.texts, Text.Ordinary t
  cache : ∀ cache ∈ c.cache, ∀ t ∈ cache.texts, Text.Ordinary t

namespace Contents.Writable

variable {c : Contents} (h : c.Writable)

include h

theorem addStep {s : Step} (hwritable : WritableStep s)
    (hfits : (stepKeys s).all keyFits = true) : (c.addStep s).Writable where
  writable := List.forall_mem_append.2 ⟨h.writable, List.forall_mem_singleton.2 hwritable⟩
  fits := List.forall_mem_append.2 ⟨h.fits, List.forall_mem_singleton.2 hfits⟩
  artifacts := h.artifacts
  cache := h.cache

theorem addCheckout : (c.addStep checkout).Writable :=
  h.addStep writableStep_checkout (by rw [stepKeys_of_isCheckout (by decide)]; rfl)

theorem addCaches {caches : List Cache}
    (hcaches : ∀ cache ∈ caches, ∀ t ∈ cache.texts, Text.Ordinary t) :
    Contents.Writable { c with cache := c.cache ++ caches } where
  writable := h.writable
  fits := h.fits
  artifacts := h.artifacts
  cache := List.forall_mem_append.2 ⟨h.cache, hcaches⟩

theorem addArtifact {name path : String} (hname : Text.Ordinary name) (hpath : Text.Ordinary path) :
    (c.addArtifact name path).Writable where
  writable := h.writable
  fits := h.fits
  artifacts a ha := by
    rcases mem_addPath ha with ha | ⟨rfl, hpaths | ⟨old, hold, hpaths⟩⟩
    · exact h.artifacts a ha
    · exact List.forall_mem_cons.2 ⟨hname, hpaths ▸ List.forall_mem_singleton.2 hpath⟩
    · have hpaths' : ∀ t ∈ old.paths ++ [path], Text.Ordinary t :=
        List.forall_mem_append.2 ⟨fun t ht => h.artifacts old hold t (List.mem_cons_of_mem _ ht),
          List.forall_mem_singleton.2 hpath⟩
      exact List.forall_mem_cons.2 ⟨hname, hpaths ▸ hpaths'⟩
  cache := h.cache

end Contents.Writable

/-- What holds of the contents of a job while its items are read. -/
structure Normal (c : Contents) : Prop extends c.Writable where
  canonical : ∀ s ∈ c.steps, s.isVoid = false → CanonicalStep s
  names : (c.artifacts.map (·.name)).Nodup
  paths : ∀ a ∈ c.artifacts, a.paths ≠ []

theorem writable_empty : Contents.empty.Writable := by
  constructor <;> simp [Contents.empty]

theorem normal_empty : Normal .empty :=
  ⟨writable_empty, by simp [Contents.empty], by simp [Contents.empty], by simp [Contents.empty]⟩

namespace Normal

variable {c : Contents} (h : Normal c)

include h

theorem addStep {s : Step} (hwritable : WritableStep s) (hfits : (stepKeys s).all keyFits = true)
    (hcanonical : s.isVoid = false → CanonicalStep s) : Normal (c.addStep s) where
  toWritable := h.toWritable.addStep hwritable hfits
  canonical := List.forall_mem_append.2 ⟨h.canonical, List.forall_mem_singleton.2 hcanonical⟩
  names := h.names
  paths := h.paths

theorem addCheckout : Normal (c.addStep checkout) where
  toWritable := h.toWritable.addCheckout
  canonical := List.forall_mem_append.2
    ⟨h.canonical, List.forall_mem_singleton.2 fun _ => .checkout⟩
  names := h.names
  paths := h.paths

theorem addCaches {caches : List Cache}
    (hcaches : ∀ cache ∈ caches, ∀ t ∈ cache.texts, Text.Ordinary t) :
    Normal { c with cache := c.cache ++ caches } where
  toWritable := h.toWritable.addCaches hcaches
  canonical := h.canonical
  names := h.names
  paths := h.paths

theorem addArtifact {name path : String} (hname : Text.Ordinary name) (hpath : Text.Ordinary path) :
    Normal (c.addArtifact name path) where
  toWritable := h.toWritable.addArtifact hname hpath
  canonical := h.canonical
  names := by
    show ((Contents.addPath name path c.artifacts).map (·.name)).Nodup
    rw [map_name_addPath]
    split
    · exact h.names
    · rename_i hnew
      refine List.nodup_append.2 ⟨h.names, by simp, fun a ha b hb heq => hnew ?_⟩
      exact List.mem_singleton.1 hb ▸ heq ▸ ha
  paths a ha := by
    rcases mem_addPath ha with ha | ⟨-, hpaths | ⟨old, -, hpaths⟩⟩
    · exact h.paths a ha
    · simp [hpaths]
    · simp [hpaths]

theorem addPaths {a : Artifact} (ha : ∀ t ∈ a.texts, Text.Ordinary t) : Normal (addPaths c a) := by
  have hname : Text.Ordinary a.name := ha _ (List.mem_cons_self ..)
  have hpaths : ∀ path ∈ a.paths, Text.Ordinary path := fun t ht => ha t (List.mem_cons_of_mem _ ht)
  exact List.foldlRecOn (motive := Normal) _ _ h fun c hc path hpath =>
    hc.addArtifact hname (hpaths path hpath)

end Normal

/-! ## Steps that are said -/

section

variable (inputs : Vars)

theorem get?_inputsNode (key : String) :
    (inputsNode inputs).get? key = (inputs.get? key).map .scalar := by
  rw [inputsNode, get?_fields, Vars.get?]
  induction inputs.entries with
  | nil => rfl
  | cons e entries ih =>
    rw [List.map_cons, List.lookup_cons, List.lookup_cons, ih]
    split <;> rfl

theorem textAt?_inputsNode (key : String) : (inputsNode inputs).textAt? key = inputs.get? key := by
  rw [Node.textAt?, get?_inputsNode, map_scalar_bind_text?]

/-- An input is no mapping. -/
theorem varsAt_inputsNode (key : String) : (inputsNode inputs).varsAt key = .empty := by
  rw [Node.varsAt, get?_inputsNode]
  cases inputs.get? key <;> rfl

theorem textsAt_inputsNode (key : String) :
    (inputsNode inputs).textsAt key = (inputs.get? key).toList := by
  rw [Node.textsAt, get?_inputsNode]
  cases inputs.get? key <;> rfl

end

/-- A command with inputs keeps contents in normal form, whatever step it is read as. -/
theorem Normal.readField {c : Contents} (h : Normal c) {id : String} {inputs : Vars}
    (hwritable : WritableStep (.ofAction (.uses id inputs)))
    (hfits : (stepKeys (.ofAction (.uses id inputs))).all keyFits = true)
    (hcanonical : id ∉ stepKinds → CanonicalStep (.ofAction (.uses id inputs)))
    (hmerge : id ≠ "<<") : Normal (readField c id (inputsNode inputs)) := by
  have hinputs : ∀ {key value : String}, inputs.get? key = some value → Text.Ordinary value := by
    intro key value hget
    have htexts : ∀ t ∈ inputs.texts, Text.Ordinary t := fun t ht =>
      hwritable.texts t (by simp [Step.texts, Step.ofAction, Action.texts, ht])
    exact (Vars.ordinary_of_texts htexts).2 (key, value) (KeyTable.mem_of_lookup hget)
  have hgetD : ∀ (key : String) {usual : String}, Text.Ordinary usual →
      Text.Ordinary ((inputs.get? key).getD usual) := by
    intro key usual husual
    cases hget : inputs.get? key with
    | none => exact husual
    | some value => exact hinputs hget
  -- By the kind of step that the command's name is taken for.
  apply readField_cases (motive := Normal)
  case run =>
    -- The step that is read has a blank command if no input is named `command`.
    have hrun : readRun (inputsNode inputs) = ⟨inputs.get? "name",
        .run ((inputs.get? "command").getD ""), .empty, none, inputs.get? "working_directory"⟩ := by
      rw [← textAt?_inputsNode, ← textAt?_inputsNode, ← textAt?_inputsNode,
        ← varsAt_inputsNode inputs "environment"]
      rfl
    have hcommand : ∀ t ∈ (Action.run ((inputs.get? "command").getD "")).texts, Text.Ordinary t :=
      List.forall_mem_singleton.2 (hgetD "command" (by decide))
    intro _
    rw [hrun]
    refine h.addStep ⟨Step.forall_texts.2 ⟨fun t ht => hinputs ht, hcommand,
      fun t ht => absurd ht List.not_mem_nil, fun t ht => absurd ht (by simp),
      fun t ht => hinputs ht⟩, List.not_mem_nil, List.not_mem_nil, fun hne => absurd rfl hne⟩ ?_
      fun hblank => .run hblank
    unfold stepKeys
    split <;> rfl
  case checkout => exact fun _ => h.addCheckout
  case cache =>
    intro _
    refine h.addCaches (List.forall_mem_singleton.2 (List.forall_mem_cons.2 ⟨?_, fun t ht => ?_⟩))
    · rw [textAt?_inputsNode]
      exact hgetD "key" (by decide)
    · rw [textsAt_inputsNode] at ht
      exact hinputs (Option.mem_toList.1 ht)
  case artifact =>
    intro _ path hpath
    rw [textAt?_inputsNode] at hpath ⊢
    exact h.addArtifact (hgetD "destination" (by decide)) (hinputs hpath)
  case nothing => exact h
  case command =>
    intro hid
    rw [vars_inputsNode]
    refine h.addStep hwritable hfits fun _ => hcanonical ?_
    simp [builtInSteps, ignoredSteps] at hid
    simp [stepKinds, hid, hmerge]

/-- What is said of a step keeps contents in normal form. -/
theorem Normal.addSaid {c : Contents} (h : Normal c) {s : Step} (hwritable : WritableStep s)
    (hfits : (stepKeys s).all keyFits = true) : Normal (addSaid c s) := by
  obtain ⟨name, action, env, condition, directory⟩ := s
  obtain ⟨hname, haction, henv, -, hdirectory⟩ := Step.forall_texts.1 hwritable.texts
  have huses : ∀ {id : String} {inputs : Vars}, action = .uses id inputs →
      WritableStep (.ofAction (.uses id inputs)) := by
    rintro id inputs rfl
    exact ⟨Step.forall_texts.2 ⟨fun t ht => absurd ht (by simp [Step.ofAction]), haction,
      fun t ht => absurd ht List.not_mem_nil, fun t ht => absurd ht (by simp [Step.ofAction]),
      fun t ht => absurd ht (by simp [Step.ofAction])⟩, List.not_mem_nil,
      hwritable.inputNames, hwritable.action⟩
  -- A command that stays one is canonical: the tests that it passed on the way here say so.
  have hcanonical : ∀ {id : String} {inputs : Vars}, action = .uses id inputs →
      Step.isVoid ⟨name, action, env, condition, directory⟩ = false →
      Step.isCheckout ⟨name, action, env, condition, directory⟩ = false → isCommand id = true →
      (inputs.isEmpty = false → id ∉ stepKinds) → CanonicalStep (.ofAction (.uses id inputs)) := by
    rintro id inputs rfl hfull hother hcommand hkind
    have hblank : Text.isBlank id.toList = false := hfull
    have hno : Text.occursIn "checkout".toList id.toList = false := hother
    have hid : '@' ∉ id.toList ∧ id.toList.head? ≠ some '.' := by
      simpa [isCommand] using hcommand
    exact .command hblank hid.1 hid.2 hno hkind
  apply addSaid_cases (motive := Normal)
  case void => exact fun _ => h
  case run =>
    intro command _ heq
    obtain rfl : action = .run command := heq
    have hsaid : WritableStep ⟨name, .run command, env, none, directory⟩ :=
      ⟨Step.forall_texts.2 ⟨hname, haction, henv, fun t ht => absurd ht (by simp), hdirectory⟩,
        hwritable.variableNames, hwritable.inputNames, hwritable.action⟩
    exact h.addStep hsaid hfits fun hblank => .run hblank
  case checkout => exact fun _ _ _ _ _ => h.addCheckout
  case drop => exact fun _ _ _ _ _ _ => h
  case plain =>
    intro id hfull hother heq hcommand
    refine h.addStep (huses heq) ?_ fun _ =>
      hcanonical heq hfull hother hcommand fun hne => absurd hne (by decide)
    obtain rfl : action = .uses id .empty := heq
    exact hfits
  case body =>
    intro id inputs hfull hother heq hcommand hne
    obtain rfl : action = .uses id inputs := heq
    refine h.readField (huses rfl) hfits
      (fun hkind => hcanonical rfl hfull hother hcommand fun _ => hkind) ?_
    rintro rfl
    refine hwritable.action ?_ rfl
    simpa [Step.inputNames, Step.inputs?, Vars.names, Vars.isEmpty] using hne

/-- What a job says is in normal form. -/
theorem normal_saidContents {j : Job} (h : WritableJob j)
    (hfits : (j.steps.flatMap stepKeys).all keyFits = true) : Normal (saidContents j) := by
  rw [List.all_flatMap, List.all_eq_true] at hfits
  have hfirst : Normal (if j.hasCheckout then .empty else Contents.empty.addStep checkout) := by
    split
    · exact normal_empty
    · exact normal_empty.addCheckout
  have hsteps : Normal (j.steps.foldl addSaid
      (if j.hasCheckout then .empty else Contents.empty.addStep checkout)) :=
    List.foldlRecOn (motive := Normal) _ _ hfirst fun c hc s hs =>
      hc.addSaid (h.steps s hs) (hfits s hs)
  exact List.foldlRecOn (motive := Normal) _ _ (hsteps.addCaches h.cache) fun c hc a ha =>
    hc.addPaths (h.artifacts a ha)

/-! ## The checkout -/

/-- Further items leave a step in its place. -/
theorem mem_steps_readField {c : Contents} {s : Step} (h : s ∈ c.steps) (kind : String)
    (body : Node) : s ∈ (readField c kind body).steps := by
  have hadd : ∀ t, s ∈ (c.addStep t).steps := fun _ => List.mem_append_left _ h
  apply readField_cases (motive := fun d : Contents => s ∈ d.steps)
  case run => exact fun _ => hadd _
  case checkout => exact fun _ => hadd _
  case cache => exact fun _ => h
  case artifact => exact fun _ _ _ => h
  case nothing => exact h
  case command => exact fun _ => hadd _

theorem mem_steps_addSaid {c : Contents} {s : Step} (h : s ∈ c.steps) (other : Step) :
    s ∈ (addSaid c other).steps := by
  have hadd : ∀ t, s ∈ (c.addStep t).steps := fun _ => List.mem_append_left _ h
  apply addSaid_cases (motive := fun d : Contents => s ∈ d.steps)
  case void => exact fun _ => h
  case run => exact fun _ _ _ => hadd _
  case checkout => exact fun _ _ _ _ _ => hadd _
  case drop => exact fun _ _ _ _ _ _ => h
  case plain => exact fun _ _ _ _ _ => hadd _
  case body => exact fun _ _ _ _ _ _ _ => mem_steps_readField h ..

/-- A checkout among the steps is said. -/
theorem mem_foldl_addSaid {c : Contents} {steps : List Step}
    (h : checkout ∈ c.steps ∨ steps.any Step.isCheckout = true) :
    checkout ∈ (steps.foldl addSaid c).steps := by
  induction steps generalizing c with
  | nil => exact h.resolve_right (by simp)
  | cons s steps ih =>
    refine ih ?_
    rcases h with h | h
    · exact .inl (mem_steps_addSaid h s)
    · rw [List.any_cons, Bool.or_eq_true] at h
      refine h.imp_left fun hcheckout => ?_
      obtain ⟨name, action, env, condition, directory⟩ := s
      cases action with
      | run command => simp [Step.isCheckout, Step.actionId?] at hcheckout
      | uses id inputs =>
        have hvoid := Step.isVoid_of_isCheckout hcheckout
        rw [addSaid, hvoid, if_neg Bool.false_ne_true]
        simp only [hcheckout, if_true]
        exact List.mem_append_right _ (List.mem_singleton_self _)

theorem steps_addPaths (c : Contents) (a : Artifact) : (addPaths c a).steps = c.steps :=
  List.foldlRecOn (motive := fun c' : Contents => c'.steps = c.steps) _ _ rfl fun _ hc _ _ => hc

/-- Neither caches nor artifacts change the steps that a job says. -/
theorem steps_saidContents (j : Job) : (saidContents j).steps =
    (j.steps.foldl addSaid
      (if j.hasCheckout then .empty else Contents.empty.addStep checkout)).steps :=
  List.foldlRecOn (motive := fun c : Contents => c.steps = _) _ _ rfl
    fun c hc a _ => (steps_addPaths c a).trans hc

/-- A job of a file checks out the repository. -/
theorem checkout_mem_saidContents (j : Job) : checkout ∈ (saidContents j).steps := by
  rw [steps_saidContents]
  refine mem_foldl_addSaid ?_
  split
  · rename_i hcheckout
    exact .inr hcheckout
  · exact .inl (List.mem_singleton_self _)

/-! ## Steps with nothing to do -/

/-- A job without the steps that have nothing to do. -/
def trimmedJob (j : Job) : Job := { j with steps := j.steps.filter fun s => !s.isVoid }

/-- A pipeline without the steps that have nothing to do. -/
def trimmed (p : Pipeline) : Pipeline := { p with jobs := p.jobs.map trimmedJob }

theorem hasCheckout_trimmedJob (j : Job) : (trimmedJob j).hasCheckout = j.hasCheckout := by
  have hboth : ∀ s : Step, (!s.isVoid && s.isCheckout) = s.isCheckout := by
    intro s
    cases hcheckout : s.isCheckout with
    | false => rw [Bool.and_false]
    | true => rw [Step.isVoid_of_isCheckout hcheckout]; rfl
  rw [Job.hasCheckout, trimmedJob, List.any_filter]
  exact congrArg (j.steps.any ·) (funext hboth)

/-- Steps with nothing to do are not written. -/
theorem jobSteps_trimmedJob (j : Job) : jobSteps (trimmedJob j) = jobSteps j := by
  have hsteps : (trimmedJob j).steps.flatMap stepOutlines = j.steps.flatMap stepOutlines := by
    rw [trimmedJob]
    induction j.steps with
    | nil => rfl
    | cons s steps ih =>
      rw [List.filter_cons]
      split
      · rw [List.flatMap_cons, List.flatMap_cons, ih]
      · rename_i hvoid
        have hnone : stepOutlines s = [] := if_pos (by simpa using hvoid)
        rw [List.flatMap_cons, hnone, List.nil_append, ih]
  rw [jobSteps, hsteps, hasCheckout_trimmedJob]
  rfl

theorem write_trimmed (p : Pipeline) : write (trimmed p) = write p := by
  have hkeys : keys (trimmed p) = keys p := by
    rw [keys, keys, KeyTable.ofJobs, KeyTable.ofJobs, trimmed, List.map_map]
    rfl
  have hjobs : (trimmed p).jobs.map (jobLine (keys p) p.environment) =
      p.jobs.map (jobLine (keys p) p.environment) := by
    rw [trimmed, List.map_map]
    refine List.map_congr_left fun j _ => ?_
    rw [Function.comp_apply, jobLine, jobSteps_trimmedJob]
    rfl
  have hempty : (trimmed p).jobs.isEmpty = p.jobs.isEmpty := by
    rw [trimmed, List.isEmpty_map]
  have hworkflow : (trimmed p).jobs.map (workflowOutline (keys p)) =
      p.jobs.map (workflowOutline (keys p)) := by
    rw [trimmed, List.map_map]
    rfl
  have henv : (trimmed p).environment = p.environment := rfl
  have hname : (trimmed p).name = p.name := rfl
  rw [write, write, outline_eq, outline_eq, jobsOutline, jobsOutline, workflowLines, workflowLines,
    hkeys, henv, hname, hjobs, hempty, hworkflow]

/-- Steps with nothing to do are not said. -/
theorem saidContents_trimmedJob (j : Job) : saidContents (trimmedJob j) = saidContents j := by
  have hsteps : ∀ c, (trimmedJob j).steps.foldl addSaid c = j.steps.foldl addSaid c := by
    intro c
    rw [trimmedJob]
    induction j.steps generalizing c with
    | nil => rfl
    | cons s steps ih =>
      rw [List.filter_cons]
      split
      · rw [List.foldl_cons, List.foldl_cons, ih]
      · rename_i hvoid
        have hnone : addSaid c s = c := if_pos (by simpa using hvoid)
        rw [List.foldl_cons, hnone, ih]
  rw [saidContents, hasCheckout_trimmedJob, hsteps]
  rfl

theorem saidJob_trimmedJob (keys : KeyTable) (environment : Vars) (j : Job) :
    saidJob keys environment (trimmedJob j) = saidJob keys environment j := by
  rw [saidJob, saidJob, saidContents_trimmedJob]
  rfl

/-! ## Saying it again -/

section

variable {p : Pipeline} (h : Writable p) (hfits : fits p = true)

include hfits

theorem fits_job {j : Job} (hj : j ∈ p.jobs) :
    (jobKeys (keys p) p.environment j).all keyFits = true :=
  List.all_eq_true.1 (Bool.and_eq_true_iff.1 hfits).2 j hj

include h

theorem normal_job {j : Job} (hj : j ∈ p.jobs) : Normal (saidContents j) := by
  have hkeys := fits_job hfits hj
  rw [jobKeys, List.all_append, Bool.and_eq_true_iff] at hkeys
  exact normal_saidContents (h.jobs j hj) hkeys.2

omit h hfits in
theorem map_name_said : (said p).jobs.map (·.name) = p.jobs.map fun j => (keys p).key j.name := by
  rw [said, List.map_map]
  rfl

omit h hfits in
theorem key_said (name : String) : (keys (said p)).key ((keys p).key name) = (keys p).key name :=
  KeyTable.key_key KeyRules.sound_standard (fun _ => KeyRules.cleanName_of_isKey) map_name_said name

omit h hfits in
/-- The jobs that a job of a file depends on go by their keys. -/
theorem keys_said (j : Job) :
    (keys (said p)).keys (saidJob (keys p) p.environment j).dependsOn =
      (saidJob (keys p) p.environment j).dependsOn := by
  refine (List.map_congr_left fun need hneed => ?_).trans (List.map_id _)
  obtain ⟨name, -, rfl⟩ :=
    List.mem_map.1 ((mem_foldl_addNew.1 hneed).resolve_left List.not_mem_nil)
  exact key_said name

/-- A job of a file is canonical once the steps with nothing to do are gone. -/
theorem canonical_trimmedJob {j : Job} (hj : j ∈ p.jobs) :
    CanonicalJob (keys (said p)) (trimmedJob (saidJob (keys p) p.environment j)) where
  runner := by
    show (jobImage j).toList.any (fun c => c == '/' || c == ':') = true
    unfold jobImage
    split
    · assumption
    · decide
  needs := by
    show ((keys (said p)).keys (saidJob (keys p) p.environment j).dependsOn).Nodup
    rw [keys_said]
    exact nodup_foldl_addNew _ List.nodup_nil
  condition := rfl
  services s hs := by
    obtain ⟨own, -, rfl⟩ := List.mem_map.1 hs
    exact ⟨rfl, rfl⟩
  artifacts := (normal_job h hfits hj).names
  paths := (normal_job h hfits hj).paths
  checkout := List.mem_filter.2 ⟨checkout_mem_saidContents j, by decide⟩
  steps s hs := by
    obtain ⟨hs, hvoid⟩ := List.mem_filter.1 hs
    exact (normal_job h hfits hj).canonical s hs (by simpa using hvoid)

/-- What a file says is said again when it is written once more, but for the steps with nothing to
do. -/
theorem said_said : said (said p) = trimmed (said p) := by
  have hjob : ∀ j ∈ p.jobs, saidJob (keys (said p)) .empty (saidJob (keys p) p.environment j) =
      trimmedJob (saidJob (keys p) p.environment j) := by
    intro j hj
    have hsaid := (canonical_trimmedJob h hfits hj).saidJob
    have hname : (keys (said p)).key (trimmedJob (saidJob (keys p) p.environment j)).name =
        (trimmedJob (saidJob (keys p) p.environment j)).name := key_said j.name
    have hneeds : (keys (said p)).keys (trimmedJob (saidJob (keys p) p.environment j)).dependsOn =
        (trimmedJob (saidJob (keys p) p.environment j)).dependsOn := keys_said j
    rw [hname, hneeds] at hsaid
    exact (saidJob_trimmedJob _ _ _).symm.trans hsaid
  have hjobs : (said p).jobs.map (saidJob (keys (said p)) .empty) = (trimmed (said p)).jobs := by
    rw [trimmed, said, List.map_map, List.map_map]
    exact List.map_congr_left hjob
  exact congrArg (Pipeline.mk "Pipeline" [.on .push] .empty) hjobs

/-- What a file says can be written. -/
theorem Writable.said : Writable (said p) where
  names := by
    rw [map_name_said]
    exact KeyTable.key_ofJobs_nodup KeyRules.sound_standard p.jobs h.names
  environment := soundVars_empty
  jobs j hj := by
    obtain ⟨own, hown, rfl⟩ := List.mem_map.1 hj
    have hnormal := normal_job h hfits hown
    refine ⟨(h.jobs own hown).image, (h.jobs own hown).allVars h.environment, fun s hs => ?_,
      hnormal.writable, hnormal.artifacts, hnormal.cache⟩
    obtain ⟨service, hservice, rfl⟩ := List.mem_map.1 hs
    exact (h.jobs own hown).services service hservice

/-- What a file says has no keys but those of the file. -/
theorem fits_said : fits (said p) = true := by
  refine Bool.and_eq_true_iff.2 ⟨keyFits_workflowName_pipeline, List.all_eq_true.2 fun j hj => ?_⟩
  obtain ⟨own, hown, rfl⟩ := List.mem_map.1 hj
  have hkeys := fits_job hfits hown
  have hnormal := normal_job h hfits hown
  have hsteps : ((saidJob (keys p) p.environment own).steps.flatMap stepKeys).all keyFits = true := by
    rw [List.all_flatMap]
    exact List.all_eq_true.2 hnormal.fits
  have hservices : (saidJob (keys p) p.environment own).services.flatMap (fun s => s.env.names) =
      own.services.flatMap fun s => s.env.names := by
    rw [saidJob, List.flatMap_map]
    rfl
  have henv : (said p).environment.insertAll (saidJob (keys p) p.environment own).environment.entries =
      p.environment.insertAll own.environment.entries := Vars.ofList_entries _
  have hname : (keys (said p)).key (saidJob (keys p) p.environment own).name =
      (keys p).key own.name := key_said own.name
  rw [jobKeys, List.all_append, Bool.and_eq_true_iff] at hkeys ⊢
  rw [hname, hservices, henv]
  exact ⟨hkeys.1, hsteps⟩

end

end Circleci
end CiPipelines

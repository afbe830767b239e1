import CiPipelines.Proofs.ShortNames

/-!
# Pipelines that last

What the file of a pipeline says is not always a pipeline that can be written again.  CircleCI names
services after their images, and the images of two services can be of one name; jobs go by their
keys, and a key has a key of its own on the next platform.  A lasting pipeline has short names, it has
images of different names, and the keys of its jobs stay short.  What its file says on GitHub,
GitLab or CircleCI is a lasting pipeline again.
-/

namespace CiPipelines

open Outline

/-! ## Names of jobs -/

namespace KeyTable

variable {r : KeyRules}

/-- The names that the jobs of a file have, where the jobs of its pipeline have the given ones. -/
def writtenNames (r : KeyRules) (names : List String) : List String :=
  names.map (ofNames r names).key

theorem writtenNames_jobs (jobs : List Job) : writtenNames r (jobs.map (·.name)) =
    jobs.map fun j => (ofJobs r jobs).key j.name :=
  List.map_map

theorem isKey_of_mem_writtenNames (h : r.Sound) {names : List String} {key : String}
    (hkey : key ∈ writtenNames r names) : IsKey key ∧ key ∉ r.reserved := by
  obtain ⟨hsound, hrules, -⟩ := sound_ofNames h names
  obtain ⟨name, -, rfl⟩ := List.mem_map.1 hkey
  have hname := hsound.key name
  rw [hrules] at hname
  exact hname

/-- Names of up to `bound` characters are written with at most 25 more. -/
theorem length_le_of_mem_writtenNames (hclean : ∀ name, (r.clean name).length ≤ max 3 name.length)
    {names : List String} {bound : Nat} (hcount : names.length < 2 ^ 64) (hbound : 3 ≤ bound)
    (hnames : ∀ name ∈ names, name.length ≤ bound) {key : String}
    (hkey : key ∈ writtenNames r names) : key.length ≤ bound + 25 := by
  obtain ⟨name, hname, rfl⟩ := List.mem_map.1 hkey
  have hmax : max 3 name.length ≤ bound := Nat.max_le.2 ⟨hbound, hnames name hname⟩
  exact Nat.le_trans (length_key_ofNames_le hclean hcount name) (Nat.add_le_add_right hmax 25)

theorem keyFits_of_mem_writtenNames (h : r.Sound) {names : List String} {key : String}
    (hkey : key ∈ writtenNames r names) (hlength : key.length ≤ 1022) : keyFits key = true :=
  keyFits_of_isKey (isKey_of_mem_writtenNames h hkey).1 hlength

theorem writtenNames_self {names : List String} (h : ∀ name ∈ names, r.base name = name) :
    writtenNames r names = names :=
  (List.map_congr_left fun name hname => key_ofNames_self h (h name hname)).trans (List.map_id _)

/-- Jobs that go by the keys of a platform keep their names where nothing is reserved. -/
theorem writtenNames_standard (h : r.Sound) (names : List String) :
    writtenNames .standard (writtenNames r names) = writtenNames r names :=
  writtenNames_self fun _ hkey => KeyRules.base_of_clean
    (KeyRules.cleanName_of_isKey (isKey_of_mem_writtenNames h hkey).1) List.not_mem_nil

/-- Jobs that go by the keys of GitLab keep their names there. -/
theorem writtenNames_gitlab (names : List String) :
    writtenNames Gitlab.keyRules (writtenNames Gitlab.keyRules names) =
      writtenNames Gitlab.keyRules names :=
  writtenNames_self fun _ hkey => KeyRules.base_of_clean
    (KeyRules.cleanName_of_isKey (isKey_of_mem_writtenNames Gitlab.sound_keyRules hkey).1)
    (isKey_of_mem_writtenNames Gitlab.sound_keyRules hkey).2

end KeyTable

open KeyTable

/-- Names of jobs whose keys are short, on GitLab also after a file of another platform. -/
structure ShortKeys (names : List String) : Prop where
  standard : ∀ key ∈ writtenNames .standard names, keyFits key = true
  gitlab : ∀ key ∈ writtenNames Gitlab.keyRules names, keyFits key = true
  later : ∀ key ∈ writtenNames Gitlab.keyRules (writtenNames .standard names), keyFits key = true

namespace ShortKeys

variable {names : List String} (h : ShortKeys names)

include h

/-- Names that were written by standard rules have short keys. -/
theorem writtenStandard : ShortKeys (writtenNames .standard names) := by
  have hself := writtenNames_standard KeyRules.sound_standard names
  exact ⟨hself.symm ▸ h.standard, h.later, hself.symm ▸ h.later⟩

/-- Names that were written for GitLab have short keys: they are their own keys everywhere. -/
theorem writtenGitlab : ShortKeys (writtenNames Gitlab.keyRules names) := by
  have hstandard := writtenNames_standard Gitlab.sound_keyRules names
  have hself := writtenNames_gitlab names
  refine ⟨hstandard.symm ▸ h.gitlab, hself.symm ▸ h.gitlab, ?_⟩
  rw [hstandard, hself]
  exact h.gitlab

end ShortKeys

/-- Names of up to 500 characters have short keys. -/
theorem shortKeys_of_length {names : List String} (hnames : ∀ name ∈ names, name.length ≤ 500)
    (hcount : names.length < 2 ^ 64) : ShortKeys names where
  -- Being written adds up to 25 characters, and no name is written with more than two changes: after
  -- that it is its own key.
  standard key hkey := by
    have hlength := @length_le_of_mem_writtenNames .standard KeyRules.length_cleanName_le _ 500
      hcount (by decide) hnames key hkey
    exact keyFits_of_mem_writtenNames KeyRules.sound_standard hkey (by omega)
  gitlab key hkey := by
    have hlength := @length_le_of_mem_writtenNames Gitlab.keyRules KeyRules.length_cleanName_le _
      500 hcount (by decide) hnames key hkey
    exact keyFits_of_mem_writtenNames Gitlab.sound_keyRules hkey (by omega)
  later key hkey := by
    have hwritten : (writtenNames .standard names).length < 2 ^ 64 := by
      rwa [writtenNames, List.length_map]
    have hstandard : ∀ name ∈ writtenNames .standard names, name.length ≤ 525 := fun name hname =>
      @length_le_of_mem_writtenNames .standard KeyRules.length_cleanName_le _ 500 hcount
        (by decide) hnames name hname
    have hlength := @length_le_of_mem_writtenNames Gitlab.keyRules KeyRules.length_cleanName_le _
      525 hwritten (by decide) hstandard key hkey
    exact keyFits_of_mem_writtenNames Gitlab.sound_keyRules hkey (by omega)

/-! ## Names in a CircleCI file -/

namespace Circleci

/-- A step whose variables, inputs and action are among those of another. -/
structure NamesFrom (t s : Step) : Prop where
  environment : ∀ name ∈ t.env.names, name ∈ s.env.names
  inputs : ∀ name ∈ t.inputNames, name ∈ s.inputNames
  action : ∀ id ∈ t.actionId?, id ∈ s.actionId?

theorem namesFrom_run {s : Step} {name directory : Option String} {command : String} {env : Vars}
    (henv : ∀ name ∈ env.names, name ∈ s.env.names) :
    NamesFrom ⟨name, .run command, env, none, directory⟩ s :=
  ⟨henv, fun _ h => absurd h List.not_mem_nil, fun _ h => absurd h (Option.not_mem_none _)⟩

theorem namesFrom_uses {s : Step} {id : String} {inputs : Vars}
    (haction : s.action = .uses id inputs) : NamesFrom (.ofAction (.uses id inputs)) s := by
  refine ⟨fun _ h => absurd h List.not_mem_nil, fun name hname => ?_, fun other hother => ?_⟩
  · simpa [Step.inputNames, Step.inputs?, haction, Step.ofAction] using hname
  · simpa [Step.actionId?, haction, Step.ofAction] using hother

theorem of_mem_addStep {c : Contents} {s t other : Step}
    (hother : other = checkout ∨ NamesFrom other s) (h : t ∈ (c.addStep other).steps) :
    t ∈ c.steps ∨ t = checkout ∨ NamesFrom t s := by
  rcases List.mem_append.1 h with hmem | hmem
  · exact .inl hmem
  · exact .inr (List.mem_singleton.1 hmem ▸ hother)

/-- A command with inputs is read as itself, as a checkout, or as a step without variables. -/
theorem of_mem_readField {c : Contents} {s t : Step} {id : String} {inputs : Vars}
    (haction : s.action = .uses id inputs)
    (h : t ∈ (readField c id (inputsNode inputs)).steps) :
    t ∈ c.steps ∨ t = checkout ∨ NamesFrom t s := by
  -- The cases of the reader are about all contents that it can leave, so the step goes into them.
  revert h
  apply readField_cases (motive := fun d : Contents =>
    t ∈ d.steps → t ∈ c.steps ∨ t = checkout ∨ NamesFrom t s)
  case run =>
    refine fun _ => of_mem_addStep (.inr (namesFrom_run fun name hname => ?_))
    rw [varsAt_inputsNode] at hname
    exact absurd hname List.not_mem_nil
  case checkout => exact fun _ => of_mem_addStep (.inl rfl)
  case cache => exact fun _ => .inl
  case artifact => exact fun _ _ _ => .inl
  case nothing => exact .inl
  case command =>
    intro _
    rw [vars_inputsNode]
    exact of_mem_addStep (.inr (namesFrom_uses haction))

/-- What is said of a step adds a checkout or a step with names of that step. -/
theorem of_mem_addSaid {c : Contents} {s t : Step} (h : t ∈ (addSaid c s).steps) :
    t ∈ c.steps ∨ t = checkout ∨ NamesFrom t s := by
  revert h
  apply addSaid_cases (motive := fun d : Contents =>
    t ∈ d.steps → t ∈ c.steps ∨ t = checkout ∨ NamesFrom t s)
  case void => exact fun _ => .inl
  case run => exact fun _ _ _ => of_mem_addStep (.inr (namesFrom_run fun _ => id))
  case checkout => exact fun _ _ _ _ _ => of_mem_addStep (.inl rfl)
  case drop => exact fun _ _ _ _ _ _ => .inl
  case plain => exact fun _ _ _ haction _ => of_mem_addStep (.inr (namesFrom_uses haction))
  case body => exact fun _ _ _ _ haction _ _ => of_mem_readField haction

/-- Each step that a job says is a checkout or has its names from a step of the job. -/
theorem of_mem_saidContents {j : Job} {t : Step} (h : t ∈ (saidContents j).steps) :
    t = checkout ∨ ∃ s ∈ j.steps, NamesFrom t s := by
  rw [steps_saidContents] at h
  refine List.foldlRecOn (motive := fun c : Contents => t ∈ c.steps →
    t = checkout ∨ ∃ s ∈ j.steps, NamesFrom t s) _ _ (fun hfirst => ?_) (fun c hc s hs hmem => ?_) h
  · split at hfirst
    · exact absurd hfirst List.not_mem_nil
    · exact .inl (List.mem_singleton.1 hfirst)
  · rcases of_mem_addSaid hmem with hmem | hmem | hmem
    · exact hc hmem
    · exact .inl hmem
    · exact .inr ⟨s, hs, hmem⟩

/-- A job that can be written is of ordinary texts if what is not written of it is. -/
theorem WritableJob.texts {j : Job} (h : WritableJob j) (hname : Text.Ordinary j.name)
    (hneeds : ∀ name ∈ j.dependsOn, Text.Ordinary name)
    (hservices : ∀ s ∈ j.services, Text.Ordinary s.name ∧ ∀ port ∈ s.ports, Text.Ordinary port)
    (hcondition : ∀ c ∈ j.condition, Text.Ordinary c) : ∀ t ∈ j.texts, Text.Ordinary t := by
  refine Job.forall_texts.2 ⟨hname, h.runner, hneeds, texts_of_soundVars h.environment,
    fun s hs => ?_, fun s hs => (h.steps s hs).texts, h.artifacts, h.cache, hcondition⟩
  exact Service.forall_texts.2 ⟨(hservices s hs).1, (h.services s hs).1, (hservices s hs).2,
    texts_of_soundVars (h.services s hs).2⟩

end Circleci

/-! ## Lasting jobs -/

/-- The names that the services of a job get from their images. -/
def Job.imageNames (j : Job) : List String := j.services.map fun s => Service.nameOfImage s.image

/-- A job of ordinary texts with short names for all that is written as a key.  Its services have
names of their own, and would have if they were named after their images. -/
structure LastingJob (j : Job) : Prop where
  texts : ∀ t ∈ j.texts, Text.Ordinary t
  runner : '\n' ∉ j.runsOn.toList
  services : j.serviceNames.Nodup
  images : j.imageNames.Nodup
  fields : ∀ name ∈ j.variableNames ++ j.inputNames ++ j.serviceNames, IsFieldName name
  actions : ∀ id ∈ j.actionIds, IsFieldName id
  imageNames : ∀ name ∈ j.imageNames, Text.Ordinary name ∧ IsFieldName name

namespace LastingJob

variable {j : Job} (h : LastingJob j) {keys : KeyTable} (hkeys : ∀ name, IsKey (keys.key name))

include h

theorem variableNames {name : String} (hname : name ∈ j.variableNames) : IsFieldName name :=
  h.fields name (List.mem_append_left _ (List.mem_append_left _ hname))

theorem inputNames {name : String} (hname : name ∈ j.inputNames) : IsFieldName name :=
  h.fields name (List.mem_append_left _ (List.mem_append_right _ hname))

theorem serviceNames {name : String} (hname : name ∈ j.serviceNames) : IsFieldName name :=
  h.fields name (List.mem_append_right _ hname)

include hkeys

/-- A job of a workflow lasts: at most a checkout comes to its steps. -/
theorem said_github : LastingJob (Github.saidJob keys j) := by
  have hwritable : Github.WritableJob (Github.saidJob keys j) :=
    Github.WritableJob.said ⟨h.services, fun _ => h.runner, h.texts, h.fields⟩ hkeys
  refine ⟨hwritable.texts, ?_, hwritable.services, h.images, hwritable.fields, fun id hid => ?_,
    h.imageNames⟩
  · show '\n' ∉ (if j.runsOnImage then Github.usualRunner else j.runsOn).toList
    split
    · decide
    · exact h.runner
  · obtain ⟨s, hs, hid⟩ := List.mem_filterMap.1 hid
    rcases Github.of_mem_saidSteps hs with rfl | ⟨hs, -⟩
    · obtain rfl : Github.checkoutAction = id := Option.some.inj hid
      decide
    · exact h.actions id (List.mem_filterMap.2 ⟨s, hs, hid⟩)

/-- A job of a GitLab file lasts: its steps are commands alone, and its services stay. -/
theorem said_gitlab {settings : Settings} (hrunner : Text.Ordinary settings.defaultRunner)
    (hline : '\n' ∉ settings.defaultRunner.toList) :
    LastingJob (Gitlab.saidJob settings keys j) := by
  have hwritable : Gitlab.WritableJob (Gitlab.saidJob settings keys j) :=
    Gitlab.WritableJob.said hrunner ⟨h.texts, fun _ => h.variableNames⟩ hkeys
  have hservices : (Gitlab.saidJob settings keys j).serviceNames = j.serviceNames := List.map_map
  have himages : (Gitlab.saidJob settings keys j).imageNames = j.imageNames := List.map_map
  have hcommand : ∀ s ∈ (Gitlab.saidJob settings keys j).steps,
      s.inputNames = [] ∧ s.actionId? = none := by
    intro s hs
    obtain ⟨line, -, rfl⟩ := List.mem_map.1 hs
    exact ⟨rfl, rfl⟩
  refine ⟨hwritable.texts, ?_, hservices ▸ h.services, himages ▸ h.images, ?_, fun id hid => ?_,
    himages ▸ h.imageNames⟩
  · show '\n' ∉ (if j.runsOnImage then j.runsOn else settings.defaultRunner).toList
    split
    · exact h.runner
    · exact hline
  · -- The file keeps variables and services, and a command has no inputs.
    simp only [List.forall_mem_append]
    refine ⟨⟨hwritable.fields, fun name hname => ?_⟩, hservices ▸ fun _ => h.serviceNames⟩
    obtain ⟨s, hs, hname⟩ := List.mem_flatMap.1 hname
    rw [(hcommand s hs).1] at hname
    exact absurd hname List.not_mem_nil
  · obtain ⟨s, hs, hid⟩ := List.mem_filterMap.1 hid
    rw [(hcommand s hs).2] at hid
    cases hid

omit hkeys in
/-- The names in a step that a file of CircleCI says are field names. -/
theorem fieldNames_of_mem_saidContents {t : Step} (ht : t ∈ (Circleci.saidContents j).steps) :
    (∀ name ∈ t.env.names, IsFieldName name) ∧ (∀ name ∈ t.inputNames, IsFieldName name) ∧
      ∀ id ∈ t.actionId?, IsFieldName id := by
  rcases Circleci.of_mem_saidContents ht with rfl | ⟨s, hs, hfrom⟩
  · exact ⟨by decide, by decide, by decide⟩
  · exact ⟨fun name hname =>
        h.variableNames (Job.mem_variableNames_of_step hs (hfrom.environment name hname)),
      fun name hname => h.inputNames (Job.mem_inputNames_of_step hs (hfrom.inputs name hname)),
      fun id hid => h.actions id (List.mem_filterMap.2 ⟨s, hs, hfrom.action id hid⟩)⟩

/-- A job of a CircleCI file lasts: it has the variables of the pipeline besides its own, and its
services have the names of their images. -/
theorem said_circleci {environment : Vars} (henv : ∀ name ∈ environment.names, IsFieldName name)
    (hwritable : Circleci.WritableJob (Circleci.saidJob keys environment j)) :
    LastingJob (Circleci.saidJob keys environment j) := by
  have hservices : (Circleci.saidJob keys environment j).serviceNames = j.imageNames := List.map_map
  have himages : (Circleci.saidJob keys environment j).imageNames = j.imageNames := List.map_map
  obtain ⟨hown, hserviceEnv, -⟩ := Job.forall_variableNames.1 fun _ => h.variableNames
  -- The writer does not write what `hwritable` leaves open: the names of services and what the job
  -- needs.  The reader fills both in, from the images and from the keys.
  refine ⟨hwritable.texts (hkeys j.name).ordinary (fun need hneed => ?_) (fun s hs => ?_)
    fun c hc => absurd hc (Option.not_mem_none c), ?_, hservices ▸ h.images, himages ▸ h.images,
    ?_, fun id hid => ?_, himages ▸ h.imageNames⟩
  · obtain ⟨name, -, rfl⟩ :=
      List.mem_map.1 ((mem_foldl_addNew.1 hneed).resolve_left List.not_mem_nil)
    exact (hkeys name).ordinary
  · have hname : s.name ∈ j.imageNames := hservices ▸ List.mem_map_of_mem hs
    obtain ⟨service, -, rfl⟩ := List.mem_map.1 hs
    exact ⟨(h.imageNames _ hname).1, fun port hport => absurd hport List.not_mem_nil⟩
  · show '\n' ∉ (if j.runsOnImage then j.runsOn else Circleci.usualImage).toList
    split
    · exact h.runner
    · decide
  · simp only [List.forall_mem_append]
    refine ⟨⟨Job.forall_variableNames.2 ⟨fun name hname => ?_, fun s hs => ?_, fun s hs =>
      (h.fieldNames_of_mem_saidContents hs).1⟩, fun name hname => ?_⟩, fun name hname => ?_⟩
    · exact (Vars.mem_names_insertAll hname).elim (henv name) (hown name)
    · obtain ⟨service, hservice, rfl⟩ := List.mem_map.1 hs
      exact hserviceEnv service hservice
    · obtain ⟨s, hs, hname⟩ := List.mem_flatMap.1 hname
      exact (h.fieldNames_of_mem_saidContents hs).2.1 name hname
    · exact (h.imageNames name (hservices ▸ hname)).2
  · obtain ⟨s, hs, hid⟩ := List.mem_filterMap.1 hid
    exact (h.fieldNames_of_mem_saidContents hs).2.2 id hid

end LastingJob

/-! ## Lasting pipelines -/

/-- A pipeline of lasting jobs with names of their own, whose name and jobs have short keys. -/
structure Lasting (p : Pipeline) : Prop where
  names : (p.jobs.map (·.name)).Nodup
  keys : ShortKeys (p.jobs.map (·.name))
  title : Text.Ordinary p.name ∧ keyFits (Circleci.workflowName p.name) = true
  triggers : ∀ t ∈ p.triggers, ∀ s ∈ t.texts, Text.Ordinary s
  environment : (∀ s ∈ p.environment.texts, Text.Ordinary s) ∧
    ∀ name ∈ p.environment.names, IsFieldName name
  jobs : ∀ j ∈ p.jobs, LastingJob j

/-- A pipeline of short names lasts if its images can name its services. -/
theorem ShortJobNames.lasting {p : Pipeline} (h : ShortJobNames p)
    (hname : keyFits (Circleci.workflowName p.name) = true)
    (himages : ∀ j ∈ p.jobs, j.imageNames.Nodup)
    (himageNames : ∀ j ∈ p.jobs, ∀ name ∈ j.imageNames, Text.Ordinary name ∧ IsFieldName name) :
    Lasting p := by
  obtain ⟨hown, htriggers, henv, -⟩ := Pipeline.forall_texts.1 h.texts
  have hfields := h.fieldNames
  simp only [List.forall_mem_append] at hfields
  obtain ⟨⟨hvariables, hinputs⟩, hservices⟩ := hfields
  have hkeys : ShortKeys (p.jobs.map (·.name)) := by
    refine shortKeys_of_length (fun name hmem => ?_) (by rw [List.length_map]; exact h.count)
    obtain ⟨j, hj, rfl⟩ := List.mem_map.1 hmem
    exact h.jobNames j hj
  refine ⟨h.names, hkeys, ⟨hown, hname⟩, htriggers,
    ⟨henv, (Pipeline.forall_variableNames.1 hvariables).1⟩, fun j hj => ?_⟩
  refine ⟨fun t ht => h.texts t (Pipeline.mem_texts_of_job hj ht), h.runners j hj, h.services j hj,
    himages j hj, ?_, h.actions j hj, himageNames j hj⟩
  simp only [List.forall_mem_append]
  exact ⟨⟨fun name hname => hvariables name (Pipeline.mem_variableNames_of_job hj hname),
    fun name hname => hinputs name (Pipeline.mem_inputNames_of_job hj hname)⟩,
    fun name hname => hservices name (Pipeline.mem_serviceNames_of_job hj hname)⟩

namespace Lasting

variable {p : Pipeline} (h : Lasting p)

include h

theorem shortServiceNames : ShortServiceNames p := by
  have hjob : ∀ {f : Job → List String}, (∀ j ∈ p.jobs, ∀ name ∈ f j, IsFieldName name) →
      ∀ name ∈ p.jobs.flatMap f, IsFieldName name := fun hf name hname => by
    obtain ⟨j, hj, hname⟩ := List.mem_flatMap.1 hname
    exact hf j hj name hname
  have htexts : ∀ s ∈ p.texts, Text.Ordinary s := Pipeline.forall_texts.2
    ⟨h.title.1, h.triggers, h.environment.1, fun j hj => (h.jobs j hj).texts⟩
  have hvariables : ∀ name ∈ p.variableNames, IsFieldName name := Pipeline.forall_variableNames.2
    ⟨h.environment.2, fun j hj _ => (h.jobs j hj).variableNames⟩
  exact
    { names := h.names
      texts := htexts
      fields := List.forall_mem_append.2
        ⟨hvariables, hjob fun j hj _ => (h.jobs j hj).inputNames⟩
      actions := fun j hj => (h.jobs j hj).actions
      services := fun j hj => (h.jobs j hj).services
      serviceNames := hjob fun j hj _ => (h.jobs j hj).serviceNames
      runners := fun j hj => (h.jobs j hj).runner }

theorem keyFits_standard :
    ∀ j ∈ p.jobs, keyFits ((KeyTable.ofJobs .standard p.jobs).key j.name) = true :=
  fun _ hj => h.keys.standard _ (List.mem_map_of_mem (List.mem_map_of_mem hj))

theorem keyFits_gitlab : ∀ j ∈ p.jobs, keyFits ((Gitlab.keys p).key j.name) = true :=
  fun _ hj => h.keys.gitlab _ (List.mem_map_of_mem (List.mem_map_of_mem hj))

theorem circleciFits : Circleci.fits p = true :=
  h.shortServiceNames.circleciFits h.title.2 h.keyFits_standard

/-- What a workflow says of a lasting pipeline is lasting. -/
theorem said_github : Lasting (Github.said p) := by
  have hnames : (Github.said p).jobs.map (·.name) =
      writtenNames .standard (p.jobs.map (·.name)) :=
    Github.map_name_said.trans (writtenNames_jobs p.jobs).symm
  refine ⟨h.shortServiceNames.github.said.names, hnames ▸ h.keys.writtenStandard, ⟨h.shortServiceNames.github.name, ?_⟩,
    Github.saidTriggers_texts h.triggers, h.environment, fun j hj => ?_⟩
  · show keyFits (Circleci.workflowName (if p.name.isEmpty then "CI" else p.name)) = true
    split
    · exact keyFits_of_length (by decide : Text.Ordinary (Circleci.workflowName "CI")).chars
        (by decide)
    · exact h.title.2
  · obtain ⟨own, hown, rfl⟩ := List.mem_map.1 hj
    exact (h.jobs own hown).said_github Github.isKey_keys

/-- What a GitLab file says of a lasting pipeline is lasting, if the settings are plain. -/
theorem said_gitlab {settings : Settings} (hrunner : Text.Ordinary settings.defaultRunner)
    (hline : '\n' ∉ settings.defaultRunner.toList)
    (hbranch : Text.Ordinary settings.defaultBranch) : Lasting (Gitlab.said settings p) := by
  have hnames : (Gitlab.said settings p).jobs.map (·.name) =
      writtenNames Gitlab.keyRules (p.jobs.map (·.name)) :=
    (Gitlab.map_name_said settings p).trans (writtenNames_jobs p.jobs).symm
  have htitle : Text.Ordinary "Pipeline" := by decide
  refine ⟨(h.shortServiceNames.gitlab.said hrunner hbranch).names, hnames ▸ h.keys.writtenGitlab,
    ⟨htitle, Circleci.keyFits_workflowName_pipeline⟩, fun t ht => ?_, h.environment,
    fun j hj => ?_⟩
  · obtain rfl := List.mem_singleton.1 ht
    exact Trigger.forall_texts.2 ⟨List.forall_mem_singleton.2 hbranch,
      fun s hs => absurd hs List.not_mem_nil, fun s hs => absurd hs (Option.not_mem_none s)⟩
  · obtain ⟨own, hown, rfl⟩ := List.mem_map.1 hj
    exact (h.jobs own hown).said_gitlab (Gitlab.isKey_keys p) hrunner hline

/-- What a CircleCI file says of a lasting pipeline is lasting. -/
theorem said_circleci : Lasting (Circleci.said p) := by
  have hwritable := h.shortServiceNames.circleci.said h.circleciFits
  have hnames : (Circleci.said p).jobs.map (·.name) =
      writtenNames .standard (p.jobs.map (·.name)) :=
    Circleci.map_name_said.trans (writtenNames_jobs p.jobs).symm
  have htitle : Text.Ordinary "Pipeline" := by decide
  refine ⟨hwritable.names, hnames ▸ h.keys.writtenStandard,
    ⟨htitle, Circleci.keyFits_workflowName_pipeline⟩, fun t ht => ?_,
    ⟨fun s hs => absurd hs List.not_mem_nil, fun s hs => absurd hs List.not_mem_nil⟩,
    fun j hj => ?_⟩
  · obtain rfl := List.mem_singleton.1 ht
    exact fun s hs => absurd hs List.not_mem_nil
  · -- That the job can be written holds of the whole file, since its keys have to fit.
    have hjob := hwritable.jobs j hj
    obtain ⟨own, hown, rfl⟩ := List.mem_map.1 hj
    exact (h.jobs own hown).said_circleci Circleci.isKey_keys h.environment.2 hjob

end Lasting
end CiPipelines

import CiPipelines.Proofs.OutlineFields
import Mathlib.Data.List.Induction

/-!
# Texts of a pipeline

All texts that a pipeline holds, those among them that are written as keys of a mapping, and the
commands that its jobs run.
-/

namespace CiPipelines

/-- The names and values of some variables. -/
def Vars.texts (v : Vars) : List String := v.entries.flatMap fun e => [e.1, e.2]

/-- The texts of a trigger. -/
def Trigger.texts (t : Trigger) : List String := t.branches ++ t.paths ++ t.cron.toList

/-- The texts of an action. -/
def Action.texts : Action → List String
  | .uses id inputs => id :: inputs.texts
  | .run command => [command]

namespace Step

/-- The texts of a step. -/
def texts (s : Step) : List String :=
  s.name.toList ++ s.action.texts ++ s.env.texts ++ s.condition.toList ++ s.directory.toList

/-- The names of the inputs of a step. -/
def inputNames (s : Step) : List String := (s.inputs?.map Vars.names).getD []

/-- The command of a step, unless it is blank. -/
def fullCommand? (s : Step) : Option String := if s.isVoid then none else s.command?

end Step

/-- The texts of a service. -/
def Service.texts (s : Service) : List String := s.name :: s.image :: s.ports ++ s.env.texts

/-- The texts of an artifact. -/
def Artifact.texts (a : Artifact) : List String := a.name :: a.paths

/-- The texts of a cache. -/
def Cache.texts (c : Cache) : List String := c.key :: c.paths

namespace Job

/-- The texts of a job. -/
def texts (j : Job) : List String :=
  j.name :: j.runsOn :: j.dependsOn ++ j.environment.texts ++ j.services.flatMap Service.texts
    ++ j.steps.flatMap Step.texts ++ j.artifacts.flatMap Artifact.texts
    ++ j.cache.flatMap Cache.texts ++ j.condition.toList

/-- The names of the variables in a job, those of its services and steps included. -/
def variableNames (j : Job) : List String :=
  j.environment.names ++ j.services.flatMap (fun s => s.env.names)
    ++ j.steps.flatMap fun s => s.env.names

/-- The names of the inputs in a job. -/
def inputNames (j : Job) : List String := j.steps.flatMap Step.inputNames

/-- The names of the services of a job. -/
def serviceNames (j : Job) : List String := j.services.map (·.name)

/-- The commands of a job. -/
def commands (j : Job) : List String := j.steps.filterMap Step.command?

/-- The commands of a job that are not blank. -/
def fullCommands (j : Job) : List String := j.steps.filterMap Step.fullCommand?

/-- The identifiers of the actions of a job. -/
def actionIds (j : Job) : List String := j.steps.filterMap Step.actionId?

end Job

namespace Pipeline

/-- The texts of a pipeline. -/
def texts (p : Pipeline) : List String :=
  p.name :: p.triggers.flatMap Trigger.texts ++ p.environment.texts ++ p.jobs.flatMap Job.texts

/-- The names of all variables in a pipeline. -/
def variableNames (p : Pipeline) : List String :=
  p.environment.names ++ p.jobs.flatMap Job.variableNames

/-- The names of all inputs in a pipeline. -/
def inputNames (p : Pipeline) : List String := p.jobs.flatMap Job.inputNames

/-- The names of all services in a pipeline. -/
def serviceNames (p : Pipeline) : List String := p.jobs.flatMap Job.serviceNames

end Pipeline

/-- What mentions a checkout is not blank. -/
theorem Step.isVoid_of_isCheckout {s : Step} (h : s.isCheckout = true) : s.isVoid = false := by
  obtain ⟨name, action, env, condition, directory⟩ := s
  cases action with
  | run command => simp [isCheckout, actionId?] at h
  | uses id inputs =>
    have hin : Text.occursIn "checkout".toList id.toList = true := by
      simpa [isCheckout, actionId?] using h
    obtain ⟨before, after, hid⟩ := (Text.occursIn_iff _ _).1 hin
    show id.toList.all Text.isSpace = false
    exact List.all_eq_false.2 ⟨'c', by simp [← hid], by decide⟩

/-! ## Texts of the parts -/

section

variable {p : Pipeline} {j : Job} {s : String}

theorem Job.mem_texts_of_service {service : Service} (h : service ∈ j.services)
    (hs : s ∈ service.texts) : s ∈ j.texts := by
  simp only [Job.texts, List.mem_append, List.mem_flatMap]
  exact .inl (.inl (.inl (.inl (.inr ⟨service, h, hs⟩))))

theorem Job.mem_texts_of_step {step : Step} (h : step ∈ j.steps) (hs : s ∈ step.texts) :
    s ∈ j.texts := by
  simp only [Job.texts, List.mem_append, List.mem_flatMap]
  exact .inl (.inl (.inl (.inr ⟨step, h, hs⟩)))

theorem Job.mem_variableNames_of_service {service : Service} (h : service ∈ j.services)
    (hs : s ∈ service.env.names) : s ∈ j.variableNames := by
  simp only [Job.variableNames, List.mem_append, List.mem_flatMap]
  exact .inl (.inr ⟨service, h, hs⟩)

theorem Job.mem_variableNames_of_step {step : Step} (h : step ∈ j.steps)
    (hs : s ∈ step.env.names) : s ∈ j.variableNames := by
  simp only [Job.variableNames, List.mem_append, List.mem_flatMap]
  exact .inr ⟨step, h, hs⟩

theorem Job.mem_inputNames_of_step {step : Step} (h : step ∈ j.steps)
    (hs : s ∈ step.inputNames) : s ∈ j.inputNames :=
  List.mem_flatMap.2 ⟨step, h, hs⟩

theorem Pipeline.mem_texts_of_job (h : j ∈ p.jobs) (hs : s ∈ j.texts) : s ∈ p.texts :=
  List.mem_append_right _ (List.mem_flatMap.2 ⟨j, h, hs⟩)

theorem Pipeline.mem_variableNames_of_job (h : j ∈ p.jobs) (hs : s ∈ j.variableNames) :
    s ∈ p.variableNames :=
  List.mem_append_right _ (List.mem_flatMap.2 ⟨j, h, hs⟩)

theorem Pipeline.mem_inputNames_of_job (h : j ∈ p.jobs) (hs : s ∈ j.inputNames) :
    s ∈ p.inputNames :=
  List.mem_flatMap.2 ⟨j, h, hs⟩

theorem Pipeline.mem_serviceNames_of_job (h : j ∈ p.jobs) (hs : s ∈ j.serviceNames) :
    s ∈ p.serviceNames :=
  List.mem_flatMap.2 ⟨j, h, hs⟩

end

/-! ## All texts of a whole -/

section

variable {P : String → Prop}

theorem Job.forall_texts {j : Job} : (∀ s ∈ j.texts, P s) ↔
    P j.name ∧ P j.runsOn ∧ (∀ s ∈ j.dependsOn, P s) ∧ (∀ s ∈ j.environment.texts, P s) ∧
      (∀ service ∈ j.services, ∀ s ∈ service.texts, P s) ∧
      (∀ step ∈ j.steps, ∀ s ∈ step.texts, P s) ∧
      (∀ a ∈ j.artifacts, ∀ s ∈ a.texts, P s) ∧ (∀ c ∈ j.cache, ∀ s ∈ c.texts, P s) ∧
      ∀ s ∈ j.condition, P s := by
  simp only [Job.texts, List.forall_mem_append, List.forall_mem_cons, List.forall_mem_flatMap,
    Option.mem_toList, Option.mem_def, and_assoc]

theorem Job.forall_variableNames {j : Job} : (∀ s ∈ j.variableNames, P s) ↔
    (∀ s ∈ j.environment.names, P s) ∧
      (∀ service ∈ j.services, ∀ s ∈ service.env.names, P s) ∧
      ∀ step ∈ j.steps, ∀ s ∈ step.env.names, P s := by
  simp only [Job.variableNames, List.forall_mem_append, List.forall_mem_flatMap, and_assoc]

theorem Service.forall_texts {service : Service} : (∀ s ∈ service.texts, P s) ↔
    P service.name ∧ P service.image ∧ (∀ s ∈ service.ports, P s) ∧
      ∀ s ∈ service.env.texts, P s := by
  simp only [Service.texts, List.forall_mem_append, List.forall_mem_cons, and_assoc]

theorem Step.forall_texts {step : Step} : (∀ s ∈ step.texts, P s) ↔
    (∀ s ∈ step.name, P s) ∧ (∀ s ∈ step.action.texts, P s) ∧ (∀ s ∈ step.env.texts, P s) ∧
      (∀ s ∈ step.condition, P s) ∧ ∀ s ∈ step.directory, P s := by
  simp only [Step.texts, List.forall_mem_append, Option.mem_toList, Option.mem_def, and_assoc]

theorem Trigger.forall_texts {t : Trigger} : (∀ s ∈ t.texts, P s) ↔
    (∀ s ∈ t.branches, P s) ∧ (∀ s ∈ t.paths, P s) ∧ ∀ s ∈ t.cron, P s := by
  simp only [Trigger.texts, List.forall_mem_append, Option.mem_toList, Option.mem_def, and_assoc]

theorem Pipeline.forall_texts {p : Pipeline} : (∀ s ∈ p.texts, P s) ↔
    P p.name ∧ (∀ t ∈ p.triggers, ∀ s ∈ t.texts, P s) ∧ (∀ s ∈ p.environment.texts, P s) ∧
      ∀ j ∈ p.jobs, ∀ s ∈ j.texts, P s := by
  simp only [Pipeline.texts, List.forall_mem_append, List.forall_mem_cons,
    List.forall_mem_flatMap, and_assoc]

theorem Pipeline.forall_variableNames {p : Pipeline} : (∀ s ∈ p.variableNames, P s) ↔
    (∀ s ∈ p.environment.names, P s) ∧ ∀ j ∈ p.jobs, ∀ s ∈ j.variableNames, P s := by
  simp only [Pipeline.variableNames, List.forall_mem_append, List.forall_mem_flatMap]

end

/-- Collecting new names one after the other keeps a list in which each name stands once. -/
theorem foldl_addNew {names more : List String} (h : (names ++ more).Nodup) :
    more.foldl (fun acc s => if acc.contains s then acc else acc ++ [s]) names =
      names ++ more := by
  induction more generalizing names with
  | nil => exact (List.append_nil names).symm
  | cons s more ih =>
    have hnew : ¬names.contains s = true := by
      intro hmem
      exact (List.nodup_append.1 h).2.2 s (List.contains_iff_mem.1 hmem) s
        (List.mem_cons_self ..) rfl
    have hnodup : (names ++ [s] ++ more).Nodup := by
      rwa [List.append_assoc, List.singleton_append]
    rw [List.foldl_cons, if_neg hnew, ih hnodup, List.append_assoc, List.singleton_append]

/-- The collected names are those that were there and the new ones. -/
theorem mem_foldl_addNew {more names : List String} {s : String} :
    s ∈ more.foldl (fun acc s => if acc.contains s then acc else acc ++ [s]) names ↔
      s ∈ names ∨ s ∈ more := by
  induction more generalizing names with
  | nil => simp
  | cons other more ih =>
    rw [List.foldl_cons, ih, List.mem_cons]
    split
    · rename_i hold
      have hmem : other ∈ names := List.contains_iff_mem.1 hold
      refine ⟨.imp_right .inr, ?_⟩
      rintro (hnames | rfl | hmore)
      · exact .inl hnames
      · exact .inl hmem
      · exact .inr hmore
    · rw [List.mem_append, List.mem_singleton, or_assoc]

/-- Each name is collected once. -/
theorem nodup_foldl_addNew {names : List String} (more : List String) (h : names.Nodup) :
    (more.foldl (fun acc s => if acc.contains s then acc else acc ++ [s]) names).Nodup := by
  induction more generalizing names with
  | nil => exact h
  | cons s more ih =>
    refine ih ?_
    dsimp only
    split
    · exact h
    · rename_i hnew
      refine List.nodup_append.2 ⟨h, by simp, fun a ha b hb heq => hnew ?_⟩
      obtain rfl := List.mem_singleton.1 hb
      exact List.contains_iff_mem.2 (heq ▸ ha)

/-- Names that are collected one after the other stand where they came first. -/
theorem foldl_addNew_nil (names : List String) :
    names.foldl (fun acc s => if acc.contains s then acc else acc ++ [s]) [] =
      names.eraseDups := by
  induction names using List.reverseRecOn with
  | nil => rfl
  | append_singleton names name ih =>
    rw [List.foldl_append, ih, List.eraseDups_append]
    show (if names.eraseDups.contains name then names.eraseDups
      else names.eraseDups ++ [name]) = _
    by_cases h : name ∈ names
    · simp [h, List.removeAll]
    · simp [h, List.removeAll, List.eraseDups_cons]

theorem nodup_eraseDups (names : List String) : names.eraseDups.Nodup :=
  foldl_addNew_nil names ▸ nodup_foldl_addNew names List.nodup_nil

/-- What changes only the elements of a name changes nothing where no element has it. -/
theorem map_eq_self_of_not_mem {α : Type} {name : α → String} {change : α → α} {key : String}
    {l : List α} (hkey : key ∉ l.map name) (h : ∀ a, name a ≠ key → change a = a) :
    l.map change = l := by
  refine (List.map_congr_left fun a ha => h a fun heq => ?_).trans (List.map_id l)
  exact hkey (List.mem_map.2 ⟨a, ha, heq⟩)

/-- The patterns are those of the triggers. -/
theorem mem_patterns {triggers : List Trigger} {f : Trigger → List String} {s : String} :
    s ∈ Trigger.patterns triggers f ↔ ∃ t ∈ triggers, s ∈ f t := by
  rw [Trigger.patterns, mem_foldl_addNew, List.mem_flatMap, or_iff_right List.not_mem_nil]

theorem Trigger.forall_patterns {P : String → Prop} {triggers : List Trigger}
    {f : Trigger → List String} (h : ∀ t ∈ triggers, ∀ s ∈ f t, P s) :
    ∀ s ∈ Trigger.patterns triggers f, P s := by
  intro s hs
  obtain ⟨t, ht, hs⟩ := mem_patterns.1 hs
  exact h t ht s hs

/-- Each pattern is kept once. -/
theorem nodup_patterns (triggers : List Trigger) (f : Trigger → List String) :
    (Trigger.patterns triggers f).Nodup :=
  nodup_foldl_addNew _ List.nodup_nil

/-- Setting a variable adds its entry and changes no other. -/
theorem Vars.mem_setEntry {name value : String} {entries : List (String × String)}
    {entry : String × String} (h : entry ∈ Vars.setEntry name value entries) :
    entry ∈ entries ∨ entry = (name, value) := by
  induction entries with
  | nil => exact .inr (List.mem_singleton.1 h)
  | cons e entries ih =>
    rw [Vars.setEntry] at h
    split at h
    · rcases List.mem_cons.1 h with heq | h
      · exact .inr heq
      · exact .inl (List.mem_cons_of_mem _ h)
    · rcases List.mem_cons.1 h with rfl | h
      · exact .inl (List.mem_cons_self ..)
      · exact (ih h).imp_left (List.mem_cons_of_mem _)

/-- The entries after setting several variables. -/
theorem Vars.mem_entries_insertAll {vars : Vars} {entries : List (String × String)}
    {entry : String × String} (h : entry ∈ (vars.insertAll entries).entries) :
    entry ∈ vars.entries ∨ entry ∈ entries := by
  induction entries generalizing vars with
  | nil => exact .inl h
  | cons first entries ih =>
    rcases ih h with h | h
    · rcases Vars.mem_setEntry h with h | rfl
      · exact .inl h
      · exact .inr (List.mem_cons_self ..)
    · exact .inr (List.mem_cons_of_mem _ h)

/-- The names after setting several variables. -/
theorem Vars.mem_names_insertAll {vars : Vars} {entries : List (String × String)} {name : String}
    (h : name ∈ (vars.insertAll entries).names) : name ∈ vars.names ∨ name ∈ entries.map (·.1) := by
  obtain ⟨entry, hentry, rfl⟩ := List.mem_map.1 h
  exact (Vars.mem_entries_insertAll hentry).imp List.mem_map_of_mem List.mem_map_of_mem

/-- A name that is neither too long for a key nor a merge key. -/
def IsFieldName (name : String) : Prop := name.length ≤ 500 ∧ name ≠ "<<"

instance (name : String) : Decidable (IsFieldName name) := inferInstanceAs (Decidable (_ ∧ _))

theorem Vars.ordinary_of_texts {vars : Vars} (h : ∀ s ∈ vars.texts, Text.Ordinary s) :
    (∀ name ∈ vars.names, Text.Ordinary name) ∧
      ∀ entry ∈ vars.entries, Text.Ordinary entry.2 := by
  have hentry : ∀ entry ∈ vars.entries, Text.Ordinary entry.1 ∧ Text.Ordinary entry.2 := by
    intro entry hentry
    refine ⟨h _ (List.mem_flatMap.2 ⟨entry, hentry, ?_⟩),
      h _ (List.mem_flatMap.2 ⟨entry, hentry, ?_⟩)⟩ <;> simp
  refine ⟨fun name hname => ?_, fun entry hmem => (hentry entry hmem).2⟩
  obtain ⟨entry, hmem, rfl⟩ := List.mem_map.1 hname
  exact (hentry entry hmem).1

namespace Outline

/-- Variables of ordinary texts, without a merge key, make a sound mapping. -/
theorem soundVars_of_texts {vars : Vars} (htexts : ∀ s ∈ vars.texts, Text.Ordinary s)
    (hmerge : "<<" ∉ vars.names) : SoundVars vars := by
  obtain ⟨hnames, hvalues⟩ := Vars.ordinary_of_texts htexts
  refine ⟨fun name hname => ⟨hnames name hname, ?_⟩, hvalues⟩
  rintro rfl
  exact hmerge hname

/-- A sound mapping has ordinary texts. -/
theorem texts_of_soundVars {vars : Vars} (h : SoundVars vars) :
    ∀ t ∈ vars.texts, Text.Ordinary t := by
  intro t ht
  obtain ⟨e, he, ht⟩ := List.mem_flatMap.1 ht
  rcases List.mem_cons.1 ht with rfl | ht
  · exact (h.names e.1 (List.mem_map_of_mem he)).1
  · obtain rfl := List.mem_singleton.1 ht
    exact h.values e he

/-- Field names of ordinary text fit. -/
theorem keyFits_of_isFieldName {name : String} (hname : Text.Ordinary name)
    (hfield : IsFieldName name) : keyFits name = true := by
  refine keyFits_of_length hname.chars ?_
  rw [String.length_toList]
  exact Nat.le_trans hfield.1 (by decide)

theorem fits_of_texts {vars : Vars} (htexts : ∀ s ∈ vars.texts, Text.Ordinary s)
    (hfields : ∀ name ∈ vars.names, IsFieldName name) : vars.names.all keyFits = true :=
  List.all_eq_true.2 fun name hname =>
    keyFits_of_isFieldName ((Vars.ordinary_of_texts htexts).1 name hname) (hfields name hname)

theorem soundVars_of_fieldNames {vars : Vars} (htexts : ∀ s ∈ vars.texts, Text.Ordinary s)
    (hfields : ∀ name ∈ vars.names, IsFieldName name) : SoundVars vars :=
  soundVars_of_texts htexts fun hmem => (hfields _ hmem).2 rfl

section

variable {levels : Nat} {key : String} {vars : Vars} (hkey : isFormatKey key = true)
  (htexts : ∀ s ∈ vars.texts, Text.Ordinary s) (hfields : ∀ name ∈ vars.names, IsFieldName name)

include hkey htexts hfields

/-- Variables whose names are field names are a part with short keys. -/
theorem Part.namedVarsField : Part (levels + 1) [key] true (Outline.varsField key vars) :=
  (varsField hkey (soundVars_of_fieldNames htexts hfields)).of_eq (fits_of_texts htexts hfields)

theorem Part.namedVarsParagraph :
    Part (levels + 1) [key] true (Outline.varsParagraph key vars) :=
  (varsParagraph hkey (soundVars_of_fieldNames htexts hfields)).of_eq
    (fits_of_texts htexts hfields)

end

end Outline
end CiPipelines

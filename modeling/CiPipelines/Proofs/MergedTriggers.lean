import CiPipelines.Proofs.AzureFiles
import CiPipelines.Proofs.GithubWorkflows

/-!
# Merged triggers

A trigger without patterns fires whatever the branch or paths are.  A file has one entry for all
triggers of an event, with the patterns of all of them.  Such an entry fires whenever one of them
does exactly if no trigger without patterns is joined with one that has some: on GitHub this holds
for branches, unless some pattern matches all of them, and for paths; on Azure an entry for all
branches stands for a trigger without them, and only paths can be lost.
-/

namespace CiPipelines

/-- How patterns match branches and paths.  A star matches every branch. -/
structure Matching where
  branch : String → String → Prop
  path : String → String → Prop
  branch_star : ∀ b, branch "*" b

namespace Trigger

/-- Whether a trigger of the event that happens fires, on a branch with some changed paths. -/
def Fires (t : Trigger) (m : Matching) (branch : String) (changed : List String) : Prop :=
  (t.branches = [] ∨ ∃ pattern ∈ t.branches, m.branch pattern branch) ∧
    (t.paths = [] ∨ ∃ pattern ∈ t.paths, ∃ path ∈ changed, m.path pattern path)

/-- A trigger fires whenever one of some triggers does, however patterns match. -/
def Covers (t : Trigger) (triggers : List Trigger) : Prop :=
  ∀ m branch changed, ∀ own ∈ triggers, own.Fires m branch changed → t.Fires m branch changed

section

variable {t : Trigger} {triggers : List Trigger}

/-- A trigger that covers others fires on all branches if one of them does. -/
theorem Covers.branches (h : t.Covers triggers) {own : Trigger} (hown : own ∈ triggers)
    (hall : own.branches = []) : t.branches = [] ∨ "*" ∈ t.branches := by
  -- Here a star is the only pattern that matches a branch.
  let onlyStar : Matching := ⟨fun pattern _ => pattern = "*", fun _ _ => True, fun _ => rfl⟩
  have hpaths : own.paths = [] ∨
      ∃ pattern ∈ own.paths, ∃ path ∈ [""], onlyStar.path pattern path := by
    cases own.paths with
    | nil => exact .inl rfl
    | cons pattern patterns =>
      exact .inr ⟨pattern, List.mem_cons_self .., "", List.mem_singleton_self _, trivial⟩
  obtain ⟨hbranch, -⟩ := h onlyStar "" [""] own hown ⟨.inl hall, hpaths⟩
  refine hbranch.imp_right ?_
  rintro ⟨pattern, hpattern, rfl⟩
  exact hpattern

/-- A trigger that covers others fires at all paths if one of them does. -/
theorem Covers.paths (h : t.Covers triggers) {own : Trigger} (hown : own ∈ triggers)
    (hall : own.paths = []) : t.paths = [] := by
  -- Here no path is matched.
  let noPath : Matching := ⟨fun _ _ => True, fun _ _ => False, fun _ => trivial⟩
  have hbranch : own.branches = [] ∨ ∃ pattern ∈ own.branches, noPath.branch pattern "" := by
    cases own.branches with
    | nil => exact .inl rfl
    | cons pattern patterns => exact .inr ⟨pattern, List.mem_cons_self .., trivial⟩
  obtain ⟨-, hpath⟩ := h noPath "" [] own hown ⟨hbranch, .inl hall⟩
  refine hpath.resolve_right ?_
  rintro ⟨pattern, -, path, -, hmatch⟩
  exact hmatch

/-- A trigger with the patterns of some triggers covers them exactly if it has no patterns where one
of them has none. -/
theorem covers_iff (hbranches : "*" ∈ t.branches ∨ ∀ own ∈ triggers, own.branches ⊆ t.branches)
    (hpaths : ∀ own ∈ triggers, own.paths ⊆ t.paths) :
    t.Covers triggers ↔
      (∀ own ∈ triggers, own.branches = [] → t.branches = [] ∨ "*" ∈ t.branches) ∧
        ∀ own ∈ triggers, own.paths = [] → t.paths = [] := by
  refine ⟨fun h => ⟨fun own hown => h.branches hown, fun own hown => h.paths hown⟩, ?_⟩
  rintro ⟨hallBranches, hallPaths⟩ m branch changed own hown ⟨hbranch, hpath⟩
  have hstar : "*" ∈ t.branches → ∃ pattern ∈ t.branches, m.branch pattern branch :=
    fun hmem => ⟨"*", hmem, m.branch_star branch⟩
  refine ⟨?_, ?_⟩
  · rcases hbranch with hnone | ⟨pattern, hpattern, hmatch⟩
    · exact (hallBranches own hown hnone).imp_right hstar
    · right
      rcases hbranches with hmem | hsub
      · exact hstar hmem
      · exact ⟨pattern, hsub own hown hpattern, hmatch⟩
  · rcases hpath with hnone | ⟨pattern, hpattern, hmatch⟩
    · exact .inl (hallPaths own hown hnone)
    · exact .inr ⟨pattern, hpaths own hown hpattern, hmatch⟩

/-- All patterns of the triggers are kept. -/
theorem subset_patterns (f : Trigger → List String) :
    ∀ own ∈ triggers, f own ⊆ patterns triggers f :=
  fun own hown _ hs => mem_patterns.2 ⟨own, hown, hs⟩

theorem patterns_eq_nil {f : Trigger → List String} :
    patterns triggers f = [] ↔ ∀ own ∈ triggers, f own = [] := by
  simp only [List.eq_nil_iff_forall_not_mem, mem_patterns]
  exact ⟨fun h own hown s hs => h s ⟨own, hown, hs⟩, fun h s ⟨own, hown, hs⟩ => h own hown s hs⟩

/-- Either none of some triggers has patterns of a kind, or all of them have. -/
def Uniform (triggers : List Trigger) (f : Trigger → List String) : Prop :=
  (∀ own ∈ triggers, f own = []) ∨ ∀ own ∈ triggers, f own ≠ []

theorem uniform_iff {f : Trigger → List String} : Uniform triggers f ↔
    ∀ own ∈ triggers, f own = [] → patterns triggers f = [] := by
  constructor
  · rintro (hnone | hall) own hown hnil
    · exact patterns_eq_nil.2 hnone
    · exact absurd hnil (hall own hown)
  · intro h
    by_cases hsome : ∃ own ∈ triggers, f own = []
    · obtain ⟨own, hown, hnil⟩ := hsome
      exact .inl (patterns_eq_nil.1 (h own hown hnil))
    · exact .inr fun own hown hnil => hsome ⟨own, hown, hnil⟩

end

end Trigger

/-! ## Workflows -/

namespace Github

section

variable {triggers : List Trigger} {event : Event} {t : Trigger}

/-- What is said of an event covers the triggers for it exactly if none without patterns is joined
with one that has some; a star makes up for that with branches. -/
theorem covers_mergedTrigger? (ht : t ∈ mergedTrigger? triggers event) :
    t.Covers (triggers.filter fun t => t.event == event) ↔
      (Trigger.Uniform (triggers.filter fun t => t.event == event) (·.branches) ∨
        ∃ own ∈ triggers.filter fun t => t.event == event, "*" ∈ own.branches) ∧
      Trigger.Uniform (triggers.filter fun t => t.event == event) (·.paths) := by
  unfold mergedTrigger? at ht
  generalize triggers.filter (fun t => t.event == event) = own at ht ⊢
  cases own with
  | nil => cases ht
  | cons first rest =>
    obtain rfl := Option.some.inj ht
    rw [Trigger.covers_iff (.inr (Trigger.subset_patterns _)) (Trigger.subset_patterns _)]
    refine and_congr ?_ Trigger.uniform_iff.symm
    rw [Trigger.uniform_iff, ← mem_patterns]
    by_cases hstar : "*" ∈ Trigger.patterns (first :: rest) (·.branches)
    · simp only [hstar, or_true, implies_true]
    · simp only [hstar, or_false]

/-- The trigger for pushes, or for pull requests, that is said is the joined one. -/
theorem filter_saidTriggers (hevent : event = .push ∨ event = .pullRequest) (hne : triggers ≠ []) :
    ((saidTriggers triggers).filter fun t => t.event == event) =
      (mergedTrigger? triggers event).toList := by
  obtain ⟨hpush, hpull, -, -⟩ := @filter_inOrder (mergedTrigger? triggers .push)
    (mergedTrigger? triggers .pullRequest) (times triggers) (manualTrigger? triggers)
    (fun _ => isFiltered_mergedTrigger?) (fun _ => isFiltered_mergedTrigger?)
    (fun _ => eq_of_mem_manualTrigger?)
  rw [saidTriggers, if_neg fun hempty => hne (List.isEmpty_iff.1 hempty)]
  rcases hevent with rfl | rfl
  · exact hpush
  · exact hpull

theorem mem_mergedTrigger?_of_mem (ht : t ∈ saidTriggers triggers)
    (hevent : t.event = .push ∨ t.event = .pullRequest) (hne : triggers ≠ []) :
    t ∈ mergedTrigger? triggers t.event := by
  have hmem : t ∈ (saidTriggers triggers).filter fun own => own.event == t.event :=
    List.mem_filter.2 ⟨ht, beq_self_eq_true t.event⟩
  rw [filter_saidTriggers hevent hne] at hmem
  exact Option.mem_toList.1 hmem

end

/-- The entry of a workflow for an event fires whenever a trigger of the pipeline for that event
does, however patterns match, exactly if no trigger without patterns is joined with one that has
some, unless a pattern matches all branches. -/
theorem covers_read_write {p q : Pipeline} {settings : Settings} (h : Writable p)
    (hread : read settings (write p) = .ok q) {t : Trigger} (ht : t ∈ q.triggers)
    (hevent : t.event = .push ∨ t.event = .pullRequest) :
    t.Covers (p.triggers.filter fun own => own.event == t.event) ↔
      (Trigger.Uniform (p.triggers.filter fun own => own.event == t.event) (·.branches) ∨
        ∃ own ∈ p.triggers.filter fun own => own.event == t.event, "*" ∈ own.branches) ∧
      Trigger.Uniform (p.triggers.filter fun own => own.event == t.event) (·.paths) := by
  obtain rfl : said p = q := by
    rw [read_write_said h] at hread
    split at hread
    · exact Except.ok.inj hread
    · cases hread
  by_cases hne : p.triggers = []
  · simp [hne, Trigger.Covers, Trigger.Uniform]
  · exact covers_mergedTrigger? (mem_mergedTrigger?_of_mem ht hevent hne)

/-- A pipeline that starts at each push, also to branches that another trigger does not name. -/
def everyPush : Pipeline where
  name := "CI"
  triggers := [{ Trigger.on .push with branches := ["main"] }, .on .push]
  environment := .empty
  jobs := []

/-- Its workflow does not start at a push to such a branch. -/
theorem not_covers_everyPush : ∃ q, read {} (write everyPush) = .ok q ∧
    ∃ t ∈ q.triggers, t.event = .push ∧
      ¬t.Covers (everyPush.triggers.filter fun own => own.event == t.event) := by
  have hwritable : Writable everyPush := ⟨by decide, nofun, nofun, by decide, by decide⟩
  have hread : read {} (write everyPush) = .ok (said everyPush) :=
    (read_write_said hwritable {}).trans (if_pos rfl)
  refine ⟨_, hread, ⟨.push, ["main"], [], none⟩, by decide, rfl, fun hcovers => ?_⟩
  obtain ⟨hbranches, -⟩ := (covers_read_write hwritable hread (by decide) (.inl rfl)).1 hcovers
  revert hbranches
  unfold Trigger.Uniform
  decide

end Github

/-! ## Azure -/

namespace Azure

open Outline

/-- The filter that some data say. -/
def filterOf (event : Event) (n : Node) : Trigger where
  event := event
  branches := ((n.get? "branches").getD .null).textsAt "include"
  paths := ((n.get? "paths").getD .null).textsAt "include"
  cron := none

theorem filterOf_filterOutline (event : Event) (own : List Trigger) :
    filterOf event (node (filterOutline own)) =
      ⟨event, branchPatterns own, Trigger.patterns own (·.paths), none⟩ := by
  have hnull : Node.null.get? "include" = none := rfl
  unfold filterOutline
  cases Trigger.patterns own (·.paths) with
  | nil => simp [filterOf, Node.textsAt, List.lookup_cons, hnull]
  | cons path paths => simp [filterOf, Node.textsAt, List.lookup_cons]

/-- The filter for the triggers of an event covers them exactly if none without paths is joined with
one that has some. -/
theorem covers_filterOf (event : Event) (own : List Trigger) :
    (filterOf event (node (filterOutline own))).Covers own ↔ Trigger.Uniform own (·.paths) := by
  have hstar : (∃ t ∈ own, t.branches = []) → branchPatterns own = ["*"] := by
    rintro ⟨t, ht, hnil⟩
    exact if_pos (List.any_eq_true.2 ⟨t, ht, List.isEmpty_iff.2 hnil⟩)
  have hbranches : "*" ∈ branchPatterns own ∨ ∀ t ∈ own, t.branches ⊆ branchPatterns own := by
    unfold branchPatterns
    split
    · exact .inl (List.mem_singleton_self _)
    · exact .inr (Trigger.subset_patterns _)
  rw [filterOf_filterOutline, Trigger.covers_iff hbranches (Trigger.subset_patterns _),
    Trigger.uniform_iff]
  refine and_iff_right fun t ht hnil => .inr ?_
  rw [hstar ⟨t, ht, hnil⟩]
  exact List.mem_singleton_self _

/-- The entry of an Azure file for an event fires whenever a trigger of the pipeline for that event
does, however patterns match, exactly if no trigger without paths is joined with one that has
some. -/
theorem covers_write {p : Pipeline} (h : Writable p) {event : Event} {key : String}
    (hkey : (event, key) ∈ [(Event.push, "trigger"), (.pullRequest, "pr")])
    (hsome : p.triggers.filter (fun own => own.event == event) ≠ []) :
    ∃ file entry, Node.ofYaml? (write p) = some file ∧ file.get? key = some entry ∧
      ((filterOf event entry).Covers (p.triggers.filter fun own => own.event == event) ↔
        Trigger.Uniform (p.triggers.filter fun own => own.event == event) (·.paths)) := by
  refine ⟨_, node (filterOutline (p.triggers.filter fun own => own.event == event)),
    ofYaml?_write h, ?_, covers_filterOf event _⟩
  rw [get?_node_fields, outline_eq, frontLines]
  simp only [List.mem_cons, Prod.mk.injEq, List.not_mem_nil, or_false] at hkey
  obtain ⟨rfl, rfl⟩ | ⟨rfl, rfl⟩ := hkey
  · unfold pushLine
    cases hown : p.triggers.filter fun t => t.event == .push with
    | nil => exact absurd hown hsome
    | cons t own => simp
  · unfold pushLine pullRequestLines
    cases hown : p.triggers.filter fun t => t.event == .pullRequest with
    | nil => exact absurd hown hsome
    | cons t own => simp [List.lookup_cons]

/-- A pipeline that starts at each push, also to paths that another trigger does not name. -/
def everyPath : Pipeline where
  name := "CI"
  triggers := [.on .push, { Trigger.on .push with paths := ["src/*"] }]
  environment := .empty
  jobs := []

/-- Its file does not start it at a push to such a path. -/
theorem not_covers_everyPath : ∃ file entry, Node.ofYaml? (write everyPath) = some file ∧
    file.get? "trigger" = some entry ∧ ¬(filterOf .push entry).Covers everyPath.triggers := by
  obtain ⟨file, entry, hfile, hentry, hcovers⟩ := covers_write (p := everyPath)
    ⟨by decide, by decide⟩ (List.mem_cons_self ..) (by decide)
  refine ⟨file, entry, hfile, hentry, fun h => ?_⟩
  have hpaths := hcovers.1 h
  revert hpaths
  unfold Trigger.Uniform
  decide

end Azure

/-! ## Both platforms -/

/-- If some triggers of a pipeline are for pushes, or for pull requests, then a workflow and an Azure
file have one entry for them.  The entry of the workflow covers them exactly if none without
patterns is joined with one that has some, unless a pattern matches all branches; that of the Azure
file, exactly if this holds of paths. -/
theorem covers_entries {p : Pipeline} (h : Github.Writable p)
    (hkeys : ∀ j ∈ p.jobs, Outline.keyFits ((Github.keys p).key j.name) = true)
    (settings : Settings) {event : Event} {key : String}
    (hkey : (event, key) ∈ [(Event.push, "trigger"), (.pullRequest, "pr")])
    (hsome : p.triggers.filter (fun own => own.event == event) ≠ []) :
    (∃ q t, Github.read settings (Github.write p) = .ok q ∧
      q.triggers.filter (fun own => own.event == event) = [t] ∧
      (t.Covers (p.triggers.filter fun own => own.event == event) ↔
        (Trigger.Uniform (p.triggers.filter fun own => own.event == event) (·.branches) ∨
          ∃ own ∈ p.triggers.filter fun own => own.event == event, "*" ∈ own.branches) ∧
        Trigger.Uniform (p.triggers.filter fun own => own.event == event) (·.paths))) ∧
    ∃ file entry, Node.ofYaml? (Azure.write p) = some file ∧ file.get? key = some entry ∧
      ((Azure.filterOf event entry).Covers (p.triggers.filter fun own => own.event == event) ↔
        Trigger.Uniform (p.triggers.filter fun own => own.event == event) (·.paths)) := by
  have hazure : Azure.Writable p := ⟨h.texts, fun name hname =>
    h.fields name (List.mem_append_left _ (List.mem_append_left _ hname))⟩
  refine ⟨?_, Azure.covers_write hazure hkey hsome⟩
  have hevent : event = .push ∨ event = .pullRequest := by
    simp only [List.mem_cons, Prod.mk.injEq, List.not_mem_nil, or_false] at hkey
    exact hkey.imp And.left And.left
  have hne : p.triggers ≠ [] := fun hnil => hsome (by rw [hnil]; rfl)
  obtain ⟨t, ht⟩ : ∃ t, Github.mergedTrigger? p.triggers event = some t := by
    rw [Github.mergedTrigger?]
    split
    · rename_i hnone
      exact absurd hnone hsome
    · exact ⟨_, rfl⟩
  have hread : Github.read settings (Github.write p) = .ok (Github.said p) :=
    (Github.read_write_said h settings).trans (if_pos (List.all_eq_true.2 hkeys))
  refine ⟨Github.said p, t, hread, ?_, Github.covers_mergedTrigger? ht⟩
  exact (Github.filter_saidTriggers hevent hne).trans (congrArg Option.toList ht)

/-- A pipeline that starts at each push to two branches, also where only sources change. -/
def branchPushes : Pipeline where
  name := "CI"
  triggers := [{ Trigger.on .push with branches := ["main"], paths := ["src/*"] },
    { Trigger.on .push with branches := ["release/*", "main"], paths := ["docs/*"] }]
  environment := .empty
  jobs := []

/-- Both of its files start it at each of these pushes. -/
theorem covers_entries_branchPushes :
    Github.Writable branchPushes ∧
    (∀ j ∈ branchPushes.jobs, Outline.keyFits ((Github.keys branchPushes).key j.name) = true) ∧
    (Event.push, "trigger") ∈ [(Event.push, "trigger"), (.pullRequest, "pr")] ∧
    branchPushes.triggers.filter (fun own => own.event == .push) ≠ [] ∧
    (∃ q t, Github.read {} (Github.write branchPushes) = .ok q ∧
      q.triggers.filter (fun own => own.event == .push) = [t] ∧ t.Covers branchPushes.triggers) ∧
    ∃ file entry, Node.ofYaml? (Azure.write branchPushes) = some file ∧
      file.get? "trigger" = some entry ∧
      (Azure.filterOf .push entry).Covers branchPushes.triggers := by
  have hwritable : Github.Writable branchPushes := ⟨by decide, nofun, nofun, by decide, by decide⟩
  have hkey : (Event.push, "trigger") ∈ [(Event.push, "trigger"), (.pullRequest, "pr")] := by decide
  have hsome : branchPushes.triggers.filter (fun own => own.event == .push) ≠ [] := by decide
  have hpaths : Trigger.Uniform branchPushes.triggers (·.paths) := .inr (by decide)
  have hbranches : Trigger.Uniform branchPushes.triggers (·.branches) := .inr (by decide)
  obtain ⟨⟨q, t, hread, hone, hgithub⟩, file, entry, hfile, hentry, hazure⟩ :=
    covers_entries hwritable nofun {} hkey hsome
  exact ⟨hwritable, nofun, hkey, hsome, ⟨q, t, hread, hone, hgithub.2 ⟨.inl hbranches, hpaths⟩⟩,
    file, entry, hfile, hentry, hazure.2 hpaths⟩

end CiPipelines

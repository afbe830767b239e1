import CiPipelines.Github.Reader
import CiPipelines.Github.Writer
import CiPipelines.Proofs.PipelineTexts

/-!
# The triggers of a GitHub workflow

A workflow has one entry for each event.  Of the triggers for pushes and for pull requests it keeps
the patterns, each once, and of those for schedules the times; so they come back in the order of the
workflow.  Triggers in that order are said again as they are.
-/

namespace CiPipelines
namespace Github

open Outline

/-! ## What is said -/

/-- The trigger for an event, if there are triggers for it. -/
def mergedTrigger? (triggers : List Trigger) (event : Event) : Option Trigger :=
  match triggers.filter fun t => t.event == event with
  | [] => none
  | own => some ⟨event, Trigger.patterns own (·.branches), Trigger.patterns own (·.paths), none⟩

/-- The times of the schedules among some triggers. -/
def times (triggers : List Trigger) : List String :=
  (triggers.filter fun t => t.event == .schedule).filterMap (·.cron)

/-- The trigger for runs that are started by hand, if there is one. -/
def manualTrigger? (triggers : List Trigger) : Option Trigger :=
  if triggers.any fun t => t.event == .manual then some (.on .manual) else none

/-- The triggers of a workflow in their order. -/
def inOrder (push pull : Option Trigger) (times : List String) (manual : Option Trigger) :
    List Trigger :=
  push.toList ++ pull.toList ++ times.map .atTimes ++ manual.toList

/-- The triggers of a workflow. -/
def saidTriggers (triggers : List Trigger) : List Trigger :=
  let triggers := if triggers.isEmpty then [Trigger.on .push] else triggers
  inOrder (mergedTrigger? triggers .push) (mergedTrigger? triggers .pullRequest) (times triggers)
    (manualTrigger? triggers)

/-! ## Saying it again -/

/-- A trigger of a push or pull request: patterns of branches and paths, each once. -/
structure IsFiltered (event : Event) (t : Trigger) : Prop where
  event_eq : t.event = event
  branches : t.branches.Nodup
  paths : t.paths.Nodup
  cron : t.cron = none

/-- The patterns of a single trigger are its own. -/
theorem patterns_singleton {t : Trigger} {f : Trigger → List String} (h : (f t).Nodup) :
    Trigger.patterns [t] f = f t := by
  rw [Trigger.patterns, List.flatMap_singleton, foldl_addNew h, List.nil_append]

theorem isFiltered_mergedTrigger? {triggers : List Trigger} {event : Event} {t : Trigger}
    (h : t ∈ mergedTrigger? triggers event) : IsFiltered event t := by
  unfold mergedTrigger? at h
  split at h
  · cases h
  · obtain rfl := Option.some.inj h
    exact ⟨rfl, nodup_patterns _ _, nodup_patterns _ _, rfl⟩

theorem eq_of_mem_manualTrigger? {triggers : List Trigger} {t : Trigger}
    (h : t ∈ manualTrigger? triggers) : t = .on .manual := by
  unfold manualTrigger? at h
  split at h
  · exact (Option.some.inj h).symm
  · cases h

section

variable {push pull : Option Trigger} {times : List String} {manual : Option Trigger}

variable (hpush : ∀ t ∈ push, IsFiltered .push t) (hpull : ∀ t ∈ pull, IsFiltered .pullRequest t)
  (hmanual : ∀ t ∈ manual, t = .on .manual)

include hpush hpull hmanual

/-- The triggers of each event. -/
theorem filter_inOrder :
    ((inOrder push pull times manual).filter fun t => t.event == .push) = push.toList ∧
      ((inOrder push pull times manual).filter fun t => t.event == .pullRequest) = pull.toList ∧
      ((inOrder push pull times manual).filter fun t => t.event == .schedule).filterMap (·.cron) =
        times ∧
      ((inOrder push pull times manual).filter fun t => t.event == .manual) = manual.toList := by
  have htimes : ∀ event, ((times.map Trigger.atTimes).filter fun t => t.event == event) =
      if event = .schedule then times.map .atTimes else [] := by
    intro event
    split
    · rename_i heq
      refine List.filter_eq_self.2 fun t ht => ?_
      obtain ⟨c, -, rfl⟩ := List.mem_map.1 ht
      simp [heq, Trigger.atTimes, Trigger.on]
    · rename_i hne
      refine List.filter_eq_nil_iff.2 fun t ht => ?_
      obtain ⟨c, -, rfl⟩ := List.mem_map.1 ht
      simpa [Trigger.atTimes, Trigger.on] using Ne.symm hne
  have hone : ∀ {own event : Event} {t? : Option Trigger}, (∀ t ∈ t?, t.event = own) →
      (t?.toList.filter fun t => t.event == event) = if own = event then t?.toList else [] := by
    intro own event t? h
    cases t? with
    | none => simp
    | some t => simp [List.filter_cons, h t rfl]
  have hpush := fun event => @hone .push event push fun t ht => (hpush t ht).event_eq
  have hpull := fun event => @hone .pullRequest event pull fun t ht => (hpull t ht).event_eq
  have hmanual := fun event => @hone .manual event manual fun t ht => by rw [hmanual t ht]; rfl
  simp only [inOrder, List.filter_append, hpush, hpull, htimes, hmanual]
  simp [List.filterMap_map, Function.comp_def, Trigger.atTimes]

/-- Triggers in order that has at most one for each filtered event are said as they are. -/
theorem saidTriggers_inOrder (hne : inOrder push pull times manual ≠ []) :
    saidTriggers (inOrder push pull times manual) = inOrder push pull times manual := by
  obtain ⟨hfilterPush, hfilterPull, hfilterTimes, hfilterManual⟩ :=
    @filter_inOrder push pull times manual hpush hpull hmanual
  -- A trigger that is alone for its event is merged with nothing, and keeps its patterns.
  have hmerged : ∀ {event : Event} {own : Option Trigger},
      ((inOrder push pull times manual).filter fun t => t.event == event) = own.toList →
        (∀ t ∈ own, IsFiltered event t) →
          mergedTrigger? (inOrder push pull times manual) event = own := by
    intro event own hfilter hown
    rw [mergedTrigger?, hfilter]
    cases own with
    | none => rfl
    | some t =>
      obtain ⟨hevent, hbranches, hpaths, hcron⟩ := hown t rfl
      simp only [Option.toList_some, patterns_singleton hbranches, patterns_singleton hpaths,
        ← hevent, ← hcron]
  have hmanually : manualTrigger? (inOrder push pull times manual) = manual := by
    have hany : ((inOrder push pull times manual).any fun t => t.event == .manual) =
        manual.isSome := by
      have hfiltered : ((inOrder push pull times manual).any fun t => t.event == .manual) =
          ((inOrder push pull times manual).filter fun t => t.event == .manual).any
            fun _ => true := by
        simp [List.any_filter]
      rw [hfiltered, hfilterManual]
      cases manual <;> rfl
    rw [manualTrigger?, hany]
    cases manual with
    | none => rfl
    | some t =>
      rw [hmanual t rfl]
      rfl
  have hnonempty : ¬(inOrder push pull times manual).isEmpty = true := by simpa using hne
  rw [saidTriggers, if_neg hnonempty, hmerged hfilterPush hpush, hmerged hfilterPull hpull,
    hmanually]
  exact congrArg (inOrder push pull · manual) hfilterTimes

end

/-- Unless a schedule says no time, a workflow says some trigger. -/
theorem saidTriggers_ne_nil {triggers : List Trigger}
    (htimes : ∀ t ∈ triggers, t.event = .schedule → t.cron ≠ none) :
    saidTriggers triggers ≠ [] := by
  -- Each trigger puts something at the place of its event, a schedule if it says a time.
  have hany : ∀ triggers : List Trigger, (∀ t ∈ triggers, t.event = .schedule → t.cron ≠ none) →
      triggers ≠ [] → inOrder (mergedTrigger? triggers .push) (mergedTrigger? triggers .pullRequest)
        (times triggers) (manualTrigger? triggers) ≠ [] := by
    intro triggers htimes hne hnil
    obtain ⟨t, ht⟩ := List.exists_mem_of_ne_nil triggers hne
    simp only [inOrder, List.append_eq_nil_iff, Option.toList_eq_nil_iff, List.map_eq_nil_iff]
      at hnil
    obtain ⟨⟨⟨hpush, hpull⟩, htime⟩, hmanual⟩ := hnil
    have hmerged : ∀ {event : Event}, t.event = event → mergedTrigger? triggers event ≠ none := by
      intro event hevent hnone
      have hmem : t ∈ triggers.filter fun t => t.event == event :=
        List.mem_filter.2 ⟨ht, by simp [hevent]⟩
      unfold mergedTrigger? at hnone
      split at hnone
      · rename_i hempty
        rw [hempty] at hmem
        exact List.not_mem_nil hmem
      · cases hnone
    cases hevent : t.event with
    | push => exact hmerged hevent hpush
    | pullRequest => exact hmerged hevent hpull
    | schedule =>
      obtain ⟨cron, hcron⟩ := Option.ne_none_iff_exists'.1 (htimes t ht hevent)
      have hmem : cron ∈ times triggers :=
        List.mem_filterMap.2 ⟨t, List.mem_filter.2 ⟨ht, by simp [hevent]⟩, hcron⟩
      rw [htime] at hmem
      exact List.not_mem_nil hmem
    | manual =>
      have hsome : (triggers.any fun t => t.event == .manual) = true :=
        List.any_eq_true.2 ⟨t, ht, by simp [hevent]⟩
      rw [manualTrigger?, if_pos hsome] at hmanual
      cases hmanual
  unfold saidTriggers
  dsimp only
  split
  · exact hany [.on .push] (by decide) (by decide)
  · rename_i hne
    exact hany triggers htimes fun hnil => hne (List.isEmpty_iff.2 hnil)

/-- The triggers of a workflow are said again as they are. -/
theorem saidTriggers_saidTriggers {triggers : List Trigger}
    (htimes : ∀ t ∈ triggers, t.event = .schedule → t.cron ≠ none) :
    saidTriggers (saidTriggers triggers) = saidTriggers triggers := by
  have hne := saidTriggers_ne_nil htimes
  rw [saidTriggers] at hne ⊢
  exact saidTriggers_inOrder (fun _ => isFiltered_mergedTrigger?)
    (fun _ => isFiltered_mergedTrigger?) (fun _ => eq_of_mem_manualTrigger?) hne

/-- The texts of triggers that are said are those of the triggers. -/
theorem saidTriggers_texts {triggers : List Trigger}
    (h : ∀ t ∈ triggers, ∀ s ∈ t.texts, Text.Ordinary s) :
    ∀ t ∈ saidTriggers triggers, ∀ s ∈ t.texts, Text.Ordinary s := by
  have hmerged : ∀ {own : List Trigger}, (∀ t ∈ own, ∀ s ∈ t.texts, Text.Ordinary s) →
      ∀ event, ∀ t ∈ mergedTrigger? own event, ∀ s ∈ t.texts, Text.Ordinary s := by
    intro own h event t ht
    unfold mergedTrigger? at ht
    split at ht
    · cases ht
    · obtain rfl := Option.some.inj ht
      have hown : ∀ t ∈ own.filter fun t => t.event == event, ∀ s ∈ t.texts, Text.Ordinary s :=
        fun t ht => h t (List.mem_filter.1 ht).1
      exact Trigger.forall_texts.2
        ⟨Trigger.forall_patterns fun t ht => (Trigger.forall_texts.1 (hown t ht)).1,
          Trigger.forall_patterns fun t ht => (Trigger.forall_texts.1 (hown t ht)).2.1,
          fun s hs => by cases hs⟩
  have hall : ∀ {own : List Trigger}, (∀ t ∈ own, ∀ s ∈ t.texts, Text.Ordinary s) →
      ∀ t ∈ inOrder (mergedTrigger? own .push) (mergedTrigger? own .pullRequest) (times own)
        (manualTrigger? own), ∀ s ∈ t.texts, Text.Ordinary s := by
    intro own h
    simp only [inOrder, List.forall_mem_append, Option.mem_toList]
    refine ⟨⟨⟨hmerged h _, hmerged h _⟩, fun t ht s hs => ?_⟩, fun t ht s hs => ?_⟩
    · obtain ⟨time, htime, rfl⟩ := List.mem_map.1 ht
      obtain ⟨schedule, hschedule, hcron⟩ := List.mem_filterMap.1 htime
      obtain rfl : s = time := by simpa [Trigger.texts, Trigger.atTimes, Trigger.on] using hs
      exact h schedule (List.mem_filter.1 hschedule).1 s (by simp [Trigger.texts, hcron])
    · rw [eq_of_mem_manualTrigger? ht] at hs
      exact absurd hs List.not_mem_nil
  rw [saidTriggers]
  refine hall ?_
  split
  · decide
  · exact h

/-! ## Reading -/

/-- The triggers under some events are those under each of them. -/
theorem readTriggers_fields (lines : List (Line Outline)) :
    readTriggers (node (.fields lines)) =
      (lineNodes lines).flatMap fun (event, body) => readEvent event body := by
  rw [node_fields]
  split
  · rename_i hnil
    rw [hnil]
    rfl
  · rfl

section

variable {triggers : List Trigger}

/-- The entry of a push or pull request is read as the trigger that joins those for the event. -/
theorem readEvent_eventLines {event : Event} (hevent : event = .push ∨ event = .pullRequest) :
    ((lineNodes (eventLines triggers event)).flatMap fun (event, body) => readEvent event body) =
      (mergedTrigger? triggers event).toList := by
  have hread : ∀ body, readEvent event.name body = [filtered event body] := by
    intro body
    rcases hevent with rfl | rfl <;> rfl
  unfold eventLines mergedTrigger?
  cases triggers.filter fun t => t.event == event with
  | nil => rfl
  | cons t own => simp [hread, filtered, Node.textsAt, List.lookup_append]

/-- The times of the schedules are read back. -/
theorem readEvent_scheduleLines :
    ((lineNodes (scheduleLines triggers)).flatMap fun (event, body) => readEvent event body) =
      (times triggers).map .atTimes := by
  have htimes : times triggers =
      (triggers.filter fun t => t.event == .schedule).filterMap (·.cron) := rfl
  unfold scheduleLines
  rw [← htimes]
  cases times triggers with
  | nil => rfl
  | cons time times =>
    have hread : ∀ body, readEvent "schedule" body =
        (body.items.filterMap fun entry => entry.textAt? "cron").map .atTimes := fun _ => rfl
    have hcron : ∀ c, (node (.fields [.field "cron" (.text c)])).textAt? "cron" = some c := by
      intro c
      simp [Node.textAt?]
    simp [hread, List.filterMap_map, Function.comp_def, hcron]

theorem readEvent_manualLines :
    ((lineNodes (manualLines triggers)).flatMap fun (event, body) => readEvent event body) =
      (manualTrigger? triggers).toList := by
  unfold manualLines manualTrigger?
  split <;> rfl

/-- The triggers of a workflow are read. -/
theorem readTriggers_triggerLines (triggers : List Trigger) : ∃ body,
    lineNodes (triggerLines triggers) = [("on", body)] ∧
      readTriggers body = saidTriggers triggers := by
  refine ⟨_, rfl, (readTriggers_fields _).trans ?_⟩
  simp only [lineNodes_append, List.flatMap_append, readEvent_eventLines (.inl rfl),
    readEvent_eventLines (.inr rfl), readEvent_scheduleLines, readEvent_manualLines]
  rfl

/-! ## Writing -/

section

variable {levels : Nat} (htexts : ∀ t ∈ triggers, ∀ s ∈ t.texts, Text.Ordinary s)

include htexts

theorem part_eventLines {event : Event} (hevent : isFormatKey event.name = true) :
    Part (levels + 2) [event.name] true (eventLines triggers event) := by
  have hown : ∀ t ∈ triggers.filter fun t => t.event == event, ∀ s ∈ t.texts, Text.Ordinary s :=
    fun t ht => htexts t (List.mem_filter.1 ht).1
  unfold eventLines
  split
  · exact .absent
  · have hbranches := Trigger.forall_patterns fun t ht => (Trigger.forall_texts.1 (hown t ht)).1
    have hpaths := Trigger.forall_patterns fun t ht => (Trigger.forall_texts.1 (hown t ht)).2.1
    exact .formatField hevent (((Part.listField (by decide) hbranches).append
      (.listField (by decide) hpaths)).fields (by decide : ["branches", "paths"].Nodup))

theorem part_scheduleLines : Part (levels + 3) ["schedule"] true (scheduleLines triggers) := by
  unfold scheduleLines
  split
  · exact .absent
  · refine .formatField (by decide) (Items.shortMap fun c hc => ?_).list
    obtain ⟨t, ht, hcron⟩ := List.mem_filterMap.1 hc
    have hcron : Text.Ordinary c :=
      htexts t (List.mem_filter.1 ht).1 c (by simp [Trigger.texts, hcron])
    exact .fields (.formatField (by decide) (.text hcron)) (by decide : ["cron"].Nodup)
      (List.cons_ne_nil _ _)

omit htexts in
theorem part_manualLines : Part levels ["workflow_dispatch"] true (manualLines triggers) :=
  .choice (fun _ => .formatField (by decide) .nothing) fun _ => .absent

/-- The events of any triggers are a part with short keys. -/
theorem part_triggerLines : Part (levels + 4) ["on"] true (triggerLines triggers) := by
  rw [triggerLines]
  generalize hown : (if triggers.isEmpty then [Trigger.on .push] else triggers) = own
  have htexts : ∀ t ∈ own, ∀ s ∈ t.texts, Text.Ordinary s := by
    rw [← hown]
    split
    · decide
    · exact htexts
  have hpush := @part_eventLines own (levels + 1) htexts .push (by decide)
  have hpull := @part_eventLines own (levels + 1) htexts .pullRequest (by decide)
  exact .formatField (by decide) ((((hpush.append hpull).append (part_scheduleLines htexts)).append
    part_manualLines).fields (by decide))

end

end

end Github
end CiPipelines

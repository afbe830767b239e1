import CiPipelines.Proofs.CarriedCommands
import CiPipelines.Proofs.GithubRoundTrip
import Mathlib.Data.List.Forall2

/-!
# Checkouts are kept

A job has to check out the repository before it can work in it, so the writers for GitHub and
CircleCI put a checkout in front of a job that has none, and of such a job only.  Steps with nothing
to do are left out, and CircleCI knows no actions with a version; neither moves a checkout among the
commands of its job.

The checkouts and commands of a job in order are its *marks*.  The marks of a job that was written
and read are those of the job itself, with one more checkout in front if there was none.
-/

namespace CiPipelines

open Outline

/-! ## Checkouts and commands -/

/-- What a step can be for a checkout: one itself, or a command that comes before or after it. -/
inductive Mark where
  | checkout
  | command
  deriving DecidableEq, Repr

namespace Mark

/-- For each checkout how many commands come before it, `n` of them before all marks. -/
def commandsBefore (n : Nat) : List Mark → List Nat
  | [] => []
  | .checkout :: rest => n :: commandsBefore n rest
  | .command :: rest => commandsBefore (n + 1) rest

end Mark

namespace Step

/-- The mark of a step, if it is a checkout or a command. -/
def mark? (s : Step) : Option Mark :=
  if s.isCheckout then some .checkout else s.command?.map fun _ => .command

/-- The mark of a step, unless there is nothing to do. -/
def fullMark? (s : Step) : Option Mark := if s.isVoid then none else s.mark?

theorem mark?_of_isCheckout {s : Step} (h : s.isCheckout = true) : s.mark? = some .checkout :=
  if_pos h

/-- An action that does not check out the repository has no mark. -/
theorem mark?_uses {s : Step} {id : String} {inputs : Vars} (haction : s.action = .uses id inputs)
    (h : s.isCheckout = false) : s.mark? = none := by
  rw [mark?, h, command?, haction]
  rfl

/-- Whether a step is a checkout depends on the identifier of its action alone. -/
theorem isCheckout_of_action {s t : Step} {id : String} {inputs others : Vars}
    (hs : s.action = .uses id inputs) (ht : t.action = .uses id others) :
    s.isCheckout = t.isCheckout := by
  simp only [isCheckout, actionId?, hs, ht]

/-- Leaving out steps with nothing to do leaves the marks of the others. -/
theorem filterMap_mark?_filter (steps : List Step) :
    (steps.filter fun s => !s.isVoid).filterMap mark? = steps.filterMap fullMark? := by
  rw [List.filterMap_filter]
  refine List.filterMap_congr fun s _ => ?_
  rw [fullMark?]
  cases s.isVoid <;> rfl

/-- Among the marks of some steps there are as many checkouts as among the steps. -/
theorem count_filterMap_mark? (steps : List Step) :
    (steps.filterMap mark?).count .checkout = steps.countP isCheckout := by
  induction steps with
  | nil => rfl
  | cons s steps ih =>
    by_cases h : s.isCheckout = true
    · rw [List.filterMap_cons_some (mark?_of_isCheckout h), List.count_cons_self, ih,
        List.countP_cons_of_pos h]
    · rw [List.countP_cons_of_neg h, ← ih, List.filterMap_cons, mark?, if_neg h]
      cases s.command? with
      | none => rfl
      | some command => exact List.count_cons_of_ne (show Mark.command ≠ .checkout by decide)

/-- No checkout is a step with nothing to do. -/
theorem count_filterMap_fullMark? (steps : List Step) :
    (steps.filterMap fullMark?).count .checkout = steps.countP isCheckout := by
  rw [← filterMap_mark?_filter, count_filterMap_mark?, List.countP_filter]
  refine List.countP_congr fun s _ => ?_
  constructor
  · intro h
    exact (Bool.and_eq_true_iff.1 h).1
  · intro h
    rw [h, isVoid_of_isCheckout h]
    rfl

end Step

namespace Job

/-- The checkouts and commands of a job in order. -/
def marks (j : Job) : List Mark := j.steps.filterMap Step.mark?

/-- The checkouts of a job and its commands that are not blank, in order. -/
def fullMarks (j : Job) : List Mark := j.steps.filterMap Step.fullMark?

/-- How many steps of a job check out the repository. -/
def checkouts (j : Job) : Nat := j.steps.countP Step.isCheckout

theorem checkouts_eq_zero {j : Job} (h : j.hasCheckout = false) : j.checkouts = 0 := by
  refine List.countP_eq_zero.2 fun s hs hcheckout => ?_
  rw [hasCheckout, List.any_eq_false] at h
  exact h s hs hcheckout

end Job

/-- How a job that was written and read, `q`, checks out the repository, compared with the job `j`
that it was: once and first of all if `j` did not, and as often and after as many commands if it
did. -/
structure ChecksOutAs (q j : Job) : Prop where
  /-- A job without a checkout gets one. -/
  added : j.hasCheckout = false → q.checkouts = 1 ∧ ∃ s ∈ q.steps.head?, s.isCheckout = true
  /-- A job with checkouts gets no other. -/
  kept : j.hasCheckout = true → q.checkouts = j.checkouts ∧
    Mark.commandsBefore 0 q.marks = Mark.commandsBefore 0 j.fullMarks

/-- What is to be known of the steps: they have the marks of the job, after a checkout if it has
none. -/
theorem checksOutAs_of_marks {q j : Job}
    (hmarks : q.marks = (if j.hasCheckout then [] else [.checkout]) ++ j.fullMarks)
    (hfirst : j.hasCheckout = false → ∃ s ∈ q.steps.head?, s.isCheckout = true) :
    ChecksOutAs q j := by
  have hcount : q.checkouts = (if j.hasCheckout then 0 else 1) + j.checkouts := by
    rw [Job.checkouts, ← Step.count_filterMap_mark?]
    show q.marks.count .checkout = _
    rw [hmarks, List.count_append, Job.fullMarks, Step.count_filterMap_fullMark?]
    split <;> rfl
  constructor
  · intro hnone
    rw [hnone, Job.checkouts_eq_zero hnone] at hcount
    exact ⟨hcount, hfirst hnone⟩
  · intro hhas
    rw [hhas, if_pos rfl] at hcount hmarks
    exact ⟨by omega, by rw [hmarks, List.nil_append]⟩

namespace Github

/-- A job of a workflow checks out the repository as it did, or first of all. -/
theorem checksOutAs_saidJob (keys : KeyTable) (j : Job) : ChecksOutAs (saidJob keys j) j := by
  have hsteps : (saidJob keys j).steps = (if j.hasCheckout then [] else [.uses checkoutAction])
      ++ j.steps.filter fun s => !s.isVoid := by
    show saidSteps j = _
    rw [saidSteps]
    split <;> rfl
  refine checksOutAs_of_marks ?_ fun hnone => ?_
  · rw [Job.marks, hsteps, List.filterMap_append, Step.filterMap_mark?_filter, Job.fullMarks]
    split <;> rfl
  · rw [hsteps, hnone]
    exact ⟨_, rfl, by decide⟩

end Github

namespace Circleci

/-- What is read of a step with a body adds some steps after those before; none of them is a
checkout or a command, unless that is what the step is called. -/
theorem marks_readField (c : Contents) {kind : String} (hrun : kind ≠ "run")
    (hcheckout : (Step.uses kind).isCheckout = false) (body : Node) : ∃ more,
      (readField c kind body).steps = c.steps ++ more ∧ more.filterMap Step.mark? = [] := by
  have hsame : ∃ more, c.steps = c.steps ++ more ∧ more.filterMap Step.mark? = [] :=
    ⟨[], (List.append_nil _).symm, rfl⟩
  apply readField_cases (motive := fun d : Contents =>
    ∃ more, d.steps = c.steps ++ more ∧ more.filterMap Step.mark? = [])
  case run => exact fun heq => absurd heq hrun
  case checkout =>
    rintro rfl
    exact absurd hcheckout (by decide)
  case cache => exact fun _ => hsame
  case artifact => exact fun _ _ _ => hsame
  case nothing => exact hsame
  case command =>
    intro _
    have hnone : (Step.ofAction (.uses kind body.vars)).mark? = none :=
      Step.mark?_uses rfl ((Step.isCheckout_of_action rfl rfl).trans hcheckout)
    refine ⟨_, rfl, ?_⟩
    rw [List.filterMap_cons_none hnone]
    rfl

/-- What is said of a step adds its mark after what is there. -/
theorem marks_addSaid (c : Contents) {s : Step} (haction : "run" ∉ s.actionId?) : ∃ more,
    (addSaid c s).steps = c.steps ++ more ∧ more.filterMap Step.mark? = s.fullMark?.toList := by
  have hid : ∀ {id : String} {inputs others : Vars} {t : Step}, s.isCheckout = false →
      s.action = .uses id inputs → t.action = .uses id others → t.mark? = none :=
    fun hother hs ht => Step.mark?_uses ht ((Step.isCheckout_of_action ht hs).trans hother)
  have hfull : s.isVoid = false → s.fullMark? = s.mark? := fun h => by
    rw [Step.fullMark?, h, if_neg Bool.false_ne_true]
  apply addSaid_cases (motive := fun d : Contents =>
    ∃ more, d.steps = c.steps ++ more ∧ more.filterMap Step.mark? = s.fullMark?.toList)
  case void =>
    intro h
    rw [Step.fullMark?, if_pos h]
    exact ⟨[], (List.append_nil _).symm, rfl⟩
  case run =>
    intro command h heq
    refine ⟨_, rfl, ?_⟩
    have hmark : s.mark? = some .command := by
      simp [Step.mark?, Step.isCheckout, Step.actionId?, Step.command?, heq]
    rw [hfull h, hmark]
    rfl
  case checkout =>
    intro id inputs h hcheckout _
    refine ⟨_, rfl, ?_⟩
    rw [hfull h, Step.mark?_of_isCheckout hcheckout]
    rfl
  -- From here on the action is no checkout, so neither is any step that has its name.
  case drop =>
    intro id inputs h hother heq _
    rw [hfull h, hid hother heq heq]
    exact ⟨[], (List.append_nil _).symm, rfl⟩
  case plain =>
    intro id h hother heq _
    refine ⟨_, rfl, ?_⟩
    rw [hfull h, hid hother heq heq, List.filterMap_cons_none (hid hother heq rfl)]
    rfl
  case body =>
    intro id inputs h hother heq _ _
    have hrun : id ≠ "run" := by
      rintro rfl
      exact haction (by simp [Step.actionId?, heq])
    rw [hfull h, hid hother heq heq]
    exact marks_readField c hrun ((Step.isCheckout_of_action rfl heq).trans hother) _

theorem marks_foldl_addSaid {steps : List Step} (h : ∀ s ∈ steps, "run" ∉ s.actionId?)
    (c : Contents) : ∃ more, (steps.foldl addSaid c).steps = c.steps ++ more ∧
      more.filterMap Step.mark? = steps.filterMap Step.fullMark? := by
  induction steps generalizing c with
  | nil => exact ⟨[], (List.append_nil _).symm, rfl⟩
  | cons s steps ih =>
    obtain ⟨first, hfirst, hmark⟩ := marks_addSaid c (h s (List.mem_cons_self ..))
    obtain ⟨more, hmore, hmarks⟩ := ih (fun s hs => h s (List.mem_cons_of_mem _ hs)) (addSaid c s)
    refine ⟨first ++ more, ?_, ?_⟩
    · rw [List.foldl_cons, hmore, hfirst, List.append_assoc]
    · rw [List.filterMap_append, hmark, hmarks, List.filterMap_cons]
      cases s.fullMark? <;> rfl

/-- A job of a file checks out the repository as it did, or first of all. -/
theorem checksOutAs_saidJob (keys : KeyTable) (environment : Vars) {j : Job}
    (h : "run" ∉ j.actionIds) : ChecksOutAs (saidJob keys environment j) j := by
  have hactions : ∀ s ∈ j.steps, "run" ∉ s.actionId? := fun s hs haction =>
    h (List.mem_filterMap.2 ⟨s, hs, haction⟩)
  obtain ⟨more, hmore, hmarks⟩ := marks_foldl_addSaid hactions
    (if j.hasCheckout then .empty else Contents.empty.addStep checkout)
  have hsteps : (saidJob keys environment j).steps =
      (if j.hasCheckout then [] else [checkout]) ++ more := by
    show (saidContents j).steps = _
    rw [steps_saidContents, hmore]
    split <;> rfl
  refine checksOutAs_of_marks ?_ fun hnone => ?_
  · rw [Job.marks, hsteps, List.filterMap_append, hmarks, Job.fullMarks]
    split <;> rfl
  · rw [hsteps, hnone]
    exact ⟨_, rfl, by decide⟩

end Circleci

namespace Conversion

/-- A pipeline of short names whose jobs have short keys is written for GitHub and CircleCI and read
back with the checkouts that its jobs had, and with one in front of each job that had none.  On
CircleCI the name of the pipeline is a key too, and an action called `run` would be read as a
command. -/
theorem checkouts_read_write {p : Pipeline} (h : ShortServiceNames p) (settings : Settings)
    {platform : Platform} (hplatform : platform ∈ [Platform.github, .circleci])
    (hkeys : ∀ j ∈ p.jobs, keyFits ((KeyTable.ofJobs .standard p.jobs).key j.name) = true)
    (hname : platform = .circleci → keyFits (Circleci.workflowName p.name) = true)
    (hactions : platform = .circleci → ∀ j ∈ p.jobs, "run" ∉ j.actionIds) :
    ∃ text q, write platform p = .ok text ∧ read settings platform text = .ok q ∧
      List.Forall₂ ChecksOutAs q.jobs p.jobs := by
  simp only [List.mem_cons, List.not_mem_nil, or_false] at hplatform
  rcases hplatform with rfl | rfl
  · refine ⟨Github.write p, Github.said p, rfl, ?_, ?_⟩
    · rw [read_github, h.reads_github settings hkeys]
      rfl
    · rw [Github.said, List.forall₂_map_left_iff, List.forall₂_same]
      exact fun j _ => Github.checksOutAs_saidJob _ j
  · refine ⟨Circleci.write p, Circleci.said p, rfl, ?_, ?_⟩
    · rw [read_circleci, h.reads_circleci settings (hname rfl) hkeys]
      rfl
    · rw [Circleci.said, List.forall₂_map_left_iff, List.forall₂_same]
      exact fun j hj => Circleci.checksOutAs_saidJob _ _ (hactions rfl j hj)

/-- A pipeline with a job that checks out twice, once under another name and between its commands,
and one that does not check out at all. -/
def lateCheckouts : Pipeline where
  name := "CI"
  triggers := []
  environment := .empty
  jobs := [
    { Job.new "Build" "node:20" with
      steps := [.run " \n", .run "git config --global core.longpaths true",
        .uses "acme/sparse-checkout@v1",
        .ofAction (.uses "node/install" ⟨[("tag", "20")], by decide⟩),
        .run "make", .run "\n\t", .uses "actions/checkout@v4"] },
    { Job.new "build" "ubuntu-latest" with
      steps := [.uses "actions/setup-go@v5", .run "go test ./..."] }]

theorem shortServiceNames_lateCheckouts : ShortServiceNames lateCheckouts := by decide

theorem checkouts_read_lateCheckouts : ∃ text q, write .circleci lateCheckouts = .ok text ∧
    read {} .circleci text = .ok q ∧ List.Forall₂ ChecksOutAs q.jobs lateCheckouts.jobs := by
  have hlength : ∀ j ∈ lateCheckouts.jobs,
      ((KeyTable.ofJobs .standard lateCheckouts.jobs).key j.name).toList.length ≤ 511 := by decide
  refine checkouts_read_write shortServiceNames_lateCheckouts {} (by decide) (fun j hj => ?_) (fun _ => ?_)
    fun _ => by decide
  · exact keyFits_of_length (Github.isKey_keys (p := lateCheckouts) j.name).ordinary.chars
      (hlength j hj)
  · exact keyFits_of_length (by decide : Text.Ordinary (Circleci.workflowName "CI")).chars
      (by decide)

/-- A job of a long name makes a workflow that cannot be read, with whatever checkouts. -/
theorem not_checkouts_read_longJob : ShortServiceNames Github.longJob ∧
    (∀ j ∈ Github.longJob.jobs, ∀ id ∈ ["run", "save_cache", "store_artifacts"],
      id ∉ j.actionIds) ∧
        ∃ text, write .github Github.longJob = .ok text ∧
          read {} .github text = .error (.malformed .github .notYaml) := by
  have hcanonical := Github.canonical_longJob
  obtain ⟨hfields, hservices⟩ := List.forall_mem_append.1 hcanonical.fields
  refine ⟨⟨⟨hcanonical.names, hcanonical.texts, hfields, fun j hj => ?_⟩,
    fun j hj => (hcanonical.jobs j hj).services, hservices, fun j hj => ?_⟩, fun j hj => ?_,
    Github.write Github.longJob, rfl, ?_⟩
  · obtain rfl := List.mem_singleton.1 hj
    decide
  · obtain rfl := List.mem_singleton.1 hj
    decide
  · obtain rfl := List.mem_singleton.1 hj
    decide
  · have hkey : (Github.keys Github.longJob).key longName = longName :=
      KeyTable.key_ofJobs_single (KeyRules.cleanName_of_isKey isKey_longName) List.not_mem_nil
    have hfit : (Github.longJob.jobs.all
        fun j => keyFits ((Github.keys Github.longJob).key j.name)) = false := by
      show (keyFits ((Github.keys Github.longJob).key longName) && true) = false
      rw [hkey, keyFits_longName]
      rfl
    rw [read_github, Github.read_write_said hcanonical.writable, hfit]
    rfl

end Conversion
end CiPipelines

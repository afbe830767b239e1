import CiPipelines.Gitlab.Reader
import Mathlib.Data.List.Basic
import Mathlib.Data.List.Forall2

/-!
# Inherited fields

A job of a GitLab file that does not say its image or preparation has that of the mapping `default`,
and where that says nothing either, it may be at the top of the file.  The reader asks the top only
if there is no such mapping.  So a job inherits each field exactly if the mapping does not hide one
at the top that says something.
-/

namespace CiPipelines
namespace Gitlab

/-! ## Fields -/

/-- What jobs inherit in a field: what `default` says, else what the top of the file says. -/
def inherited (root : Node) (field : String) : Option Node :=
  (root.get? "default").bind (·.get? field) <|> root.get? field

/-- The mapping `default` is asked for a field that it does not have. -/
def Hides (root : Node) (field : String) : Prop :=
  ∃ node, root.get? "default" = some node ∧ node.isFields ∧ node.get? field = none

section

variable {root : Node} {field : String}

/-- What is no mapping has no fields. -/
theorem get?_eq_none_of_not_isFields {n : Node} (h : n.isFields = false) : n.get? field = none := by
  cases n with
  | fields entries => cases h
  | _ => rfl

theorem get?_defaults_of_hides (h : Hides root field) : (defaults root).get? field = none := by
  obtain ⟨node, hdefault, hfields, hnone⟩ := h
  rw [defaults, hdefault]
  dsimp only
  rwa [if_pos hfields]

theorem inherited_of_hides (h : Hides root field) : inherited root field = root.get? field := by
  obtain ⟨node, hdefault, -, hnone⟩ := h
  rw [inherited, hdefault, Option.bind_some, hnone]
  rfl

theorem get?_defaults_of_not_hides (h : ¬Hides root field) :
    (defaults root).get? field = inherited root field := by
  unfold defaults inherited
  cases hdefault : root.get? "default" with
  | none => rfl
  | some node =>
    dsimp only
    rw [Option.bind_some]
    split
    · rename_i hfields
      cases hget : node.get? field with
      | none => exact absurd ⟨node, hdefault, hfields, hget⟩ h
      | some own => rfl
    · rename_i hfields
      rw [get?_eq_none_of_not_isFields (Bool.eq_false_iff.2 hfields)]
      rfl

/-- What is read of a field of a job, or else of the defaults, is what is inherited field by field
exactly if a field that is hidden says nothing. -/
theorem read_get?_eq_iff {α : Type} (f : Option Node → α) (body : Node) :
    f (body.get? field <|> (defaults root).get? field) =
        f (body.get? field <|> inherited root field) ↔
      (body.get? field = none → Hides root field → f (root.get? field) = f none) := by
  by_cases hhides : Hides root field
  · rw [get?_defaults_of_hides hhides, inherited_of_hides hhides]
    cases body.get? field with
    | none => exact ⟨fun h _ _ => h.symm, fun h => (h rfl hhides).symm⟩
    | some own => exact iff_of_true rfl nofun
  · rw [get?_defaults_of_not_hides hhides]
    exact iff_of_true rfl fun _ hhidden => absurd hhidden hhides

end

/-! ## Jobs -/

/-- The runner that an image stands for. -/
def runner (settings : Settings) (image : Option Node) : String :=
  (image.bind imageName?).getD settings.defaultRunner

/-- The lines of a script, none without one. -/
def linesOf (script : Option Node) : List String := script.toList.flatMap scriptLines

/-- A job inherits its image and its preparation field by field exactly if none that is hidden says
anything. -/
structure Inherits (settings : Settings) (root body : Node) (job : Job) : Prop where
  runsOn_iff : job.runsOn = runner settings (body.get? "image" <|> inherited root "image") ↔
    (body.get? "image" = none → Hides root "image" →
      runner settings (root.get? "image") = settings.defaultRunner)
  steps_iff : job.steps =
      (linesOf (body.get? "before_script" <|> inherited root "before_script") ++
        linesOf (body.get? "script")).map .run ↔
    (body.get? "before_script" = none → Hides root "before_script" →
      linesOf (root.get? "before_script") = [])

theorem run_injective : Function.Injective Step.run := by
  intro command other h
  injection h with _ haction
  injection haction

theorem inherits_readJob (settings : Settings) (root : Node) (name : String) (body : Node) :
    Inherits settings root body (readJob settings (defaults root) name body) where
  runsOn_iff := read_get?_eq_iff (runner settings) body
  steps_iff := by
    have hsteps : (readJob settings (defaults root) name body).steps =
        (linesOf (body.get? "before_script" <|> (defaults root).get? "before_script") ++
          linesOf (body.get? "script")).map .run := by
      rw [linesOf, linesOf, ← List.flatMap_append]
      rfl
    rw [hsteps, (List.map_injective_iff.2 run_injective).eq_iff, List.append_cancel_right_eq]
    exact read_get?_eq_iff linesOf body

/-- The fields of a file that are jobs. -/
def jobEntries (root : Node) : List (String × Node) :=
  root.entries.filter fun (key, body) => namesJob key && body.isFields

/-- In each file that is read, the jobs are those of the file, and each inherits its image and its
preparation field by field as far as nothing is hidden. -/
theorem forall₂_inherits_read {settings : Settings} {text : String} {p : Pipeline}
    (h : read settings text = .ok p) :
    ∃ root, Node.ofPipelineFile text = .ok root ∧
      List.Forall₂ (fun entry job => job.name = entry.1 ∧ Inherits settings root entry.2 job)
        (jobEntries root) p.jobs := by
  unfold read at h
  cases hroot : Node.ofPipelineFile text with
  | error reason =>
    rw [hroot] at h
    cases h
  | ok root =>
    rw [hroot] at h
    obtain rfl := Except.ok.inj h
    refine ⟨root, rfl, List.forall₂_map_right_iff.2 (List.forall₂_same.2 fun entry _ => ?_)⟩
    exact ⟨rfl, inherits_readJob settings root entry.1 entry.2⟩

/-- A file whose preparation and image are in `default`, and whose top has another image. -/
def fullDefaults : String :=
  "default:\n  before_script: npm ci\n  image: node:20\nimage: alpine:3\nbuild:\n  script: make\n"

theorem forall₂_inherits_read_fullDefaults : ∃ p root, read {} fullDefaults = .ok p ∧
    Node.ofPipelineFile fullDefaults = .ok root ∧
    List.Forall₂ (fun entry job => job.name = entry.1 ∧ Inherits {} root entry.2 job)
      (jobEntries root) p.jobs ∧
    p.jobs.map (fun j => (j.runsOn, j.steps)) = [("node:20", [.run "npm ci", .run "make"])] := by
  obtain ⟨p, hread, hjobs⟩ : ∃ p, read {} fullDefaults = .ok p ∧
      p.jobs.map (fun j => (j.runsOn, j.steps)) = [("node:20", [.run "npm ci", .run "make"])] :=
    exists_ok_of_toOption (by decide +kernel)
  obtain ⟨root, hroot, hinherits⟩ := forall₂_inherits_read hread
  exact ⟨p, root, hread, hroot, hinherits, hjobs⟩

/-- A file whose preparation is in `default`, and whose image is at the top. -/
def splitDefaults : String :=
  "default:\n  before_script:\n    - npm ci\nimage: node:20\nbuild:\n  script:\n    - make\n"

/-- Its job does not run on that image. -/
theorem runsOn_splitDefaults : ∃ p, read {} splitDefaults = .ok p ∧
    p.jobs.map (·.runsOn) = ["ubuntu-latest"] :=
  exists_ok_of_toOption (by decide +kernel)

end Gitlab
end CiPipelines

import CiPipelines.Proofs.FileShapes
import CiPipelines.Proofs.LastingPipelines
import CiPipelines.Proofs.Regeneration
import Mathlib.Data.List.Forall2

/-!
# Chains of conversions

A chain of conversions takes a text from platform to platform: each hop reads what the hop before it
wrote.  What is written for a lasting pipeline is read as a lasting pipeline.  So a chain that starts
at a text of a lasting pipeline never breaks off, however long it is, and all that it writes can be
read.  Azure files are not read as pipelines, so Azure can only be the end of a chain.
-/

namespace CiPipelines

open Outline

/-- Settings whose words can be written, and whose runner takes one line. -/
structure PlainSettings (settings : Settings) : Prop where
  runner : Text.Ordinary settings.defaultRunner
  line : '\n' ∉ settings.defaultRunner.toList
  branch : Text.Ordinary settings.defaultBranch

/-! ## One hop -/

namespace Lasting

variable {p : Pipeline} (h : Lasting p)

include h

theorem fits (t : YamlTarget) : t.fits p = true := by
  cases t with
  | github => exact List.all_eq_true.2 h.keyFits_standard
  | gitlab => exact List.all_eq_true.2 h.keyFits_gitlab
  | circleci => exact h.circleciFits
  | azure => rfl

/-- What is written for a lasting pipeline can be read. -/
theorem ofPipelineFile_print (t : YamlTarget) :
    Node.ofPipelineFile (print (t.outline p)) = .ok (t.file p) :=
  t.ofPipelineFile_print (t.writable_of_shortNames h.shortServiceNames) (h.fits t)

/-- What is written for a lasting pipeline is read as a lasting pipeline, but for Azure. -/
theorem read_print {settings : Settings} (hsettings : PlainSettings settings) {t : YamlTarget}
    (ht : t ≠ .azure) :
    ∃ q, Conversion.read settings t.platform (print (t.outline p)) = .ok q ∧ Lasting q := by
  cases t with
  | github =>
    have hread : Github.read settings (Github.write p) = .ok (Github.said p) :=
      h.shortServiceNames.reads_github settings h.keyFits_standard
    refine ⟨Github.said p, ?_, h.said_github⟩
    exact (Conversion.read_github settings (Github.write p)).trans (by rw [hread]; rfl)
  | gitlab =>
    have hread : Gitlab.read settings (Gitlab.write p) = .ok (Gitlab.said settings p) := by
      rw [Gitlab.read_write_said h.shortServiceNames.gitlab, if_pos (List.all_eq_true.2 h.keyFits_gitlab)]
    refine ⟨Gitlab.said settings p, ?_,
      h.said_gitlab hsettings.runner hsettings.line hsettings.branch⟩
    exact (Conversion.read_gitlab settings (Gitlab.write p)).trans (by rw [hread]; rfl)
  | circleci =>
    have hread : Circleci.read settings (Circleci.write p) = .ok (Circleci.said p) :=
      h.shortServiceNames.reads_circleci settings h.title.2 h.keyFits_standard
    refine ⟨Circleci.said p, ?_, h.said_circleci⟩
    exact (Conversion.read_circleci settings (Circleci.write p)).trans (by rw [hread]; rfl)
  | azure => exact absurd rfl ht

end Lasting

/-! ## All hops -/

namespace Conversion

/-- The texts that a chain of conversions writes, one at each platform that it comes to. -/
def chain (settings : Settings) (source : Platform) (text : String) :
    List Platform → Except ConversionError (List String)
  | [] => .ok []
  | target :: rest => do
    let next ← convert settings source target text
    let later ← chain settings target next rest
    return next :: later

/-- A text that is read as a pipeline is converted to the file of the pipeline. -/
theorem convert_of_read {settings : Settings} {source : Platform} {text : String} {p : Pipeline}
    (hread : read settings source text = .ok p) (t : YamlTarget) :
    convert settings source t.platform text = .ok (print (t.outline p)) := by
  have hrequire : require t.platform .target = .ok () := by cases t <;> rfl
  rw [convert, hrequire, hread]
  exact t.write_eq p

/-- A chain whose first hop and whose further hops come to their ends. -/
theorem chain_cons_of_ok {settings : Settings} {source target : Platform} {text next : String}
    {rest : List Platform} {texts : List String}
    (hconvert : convert settings source target text = .ok next)
    (hlater : chain settings target next rest = .ok texts) :
    chain settings source text (target :: rest) = .ok (next :: texts) := by
  simp only [chain, hconvert, hlater, bind, Except.bind]
  rfl

/-- A text that is the file of a lasting pipeline and is read as its data. -/
def IsLastingFile (t : YamlTarget) (text : String) : Prop :=
  ∃ p, Lasting p ∧ write t.platform p = .ok text ∧ Node.ofPipelineFile text = .ok (t.file p)

/-- A chain that starts at a lasting pipeline comes to its end, and writes a readable file of a
lasting pipeline at every hop. -/
theorem chain_of_lasting {settings : Settings} (hsettings : PlainSettings settings)
    {targets : List YamlTarget} (hazure : .azure ∉ targets.dropLast) {source : Platform}
    {text : String} {p : Pipeline} (hread : read settings source text = .ok p) (h : Lasting p) :
    ∃ texts, chain settings source text (targets.map YamlTarget.platform) = .ok texts ∧
      List.Forall₂ IsLastingFile targets texts := by
  -- Along the chain the platform, the text and the pipeline change; that the pipeline lasts stays.
  induction targets generalizing source text p with
  | nil => exact ⟨[], rfl, .nil⟩
  | cons t rest ih =>
    have hconvert := convert_of_read hread t
    have hfile : IsLastingFile t (print (t.outline p)) :=
      ⟨p, h, t.write_eq p, h.ofPipelineFile_print t⟩
    cases rest with
    | nil => exact ⟨[print (t.outline p)], chain_cons_of_ok hconvert rfl, .cons hfile .nil⟩
    | cons next rest =>
      rw [List.dropLast_cons_cons, List.mem_cons, not_or] at hazure
      obtain ⟨q, hq, hlasting⟩ := h.read_print hsettings (Ne.symm hazure.1)
      obtain ⟨texts, hchain, hfiles⟩ := ih hazure.2 hq hlasting
      exact ⟨print (t.outline p) :: texts, chain_cons_of_ok hconvert hchain, .cons hfile hfiles⟩

theorem lasting_messyJobs : Lasting messyJobs :=
  shortJobNames_messyJobs.lasting keyFits_messyJobs (by decide) (by decide)

/-- The messy pipeline goes around the platforms and comes to Azure in the end. -/
theorem chain_messyJobs : ∃ texts,
    chain {} .github (print (YamlTarget.github.outline messyJobs))
        [.circleci, .gitlab, .circleci, .github, .azure] = .ok texts ∧
      List.Forall₂ IsLastingFile [.circleci, .gitlab, .circleci, .github, .azure] texts := by
  have hsettings : PlainSettings {} := ⟨by decide, by decide, by decide⟩
  have hazure : YamlTarget.azure ∉ List.dropLast
      [.circleci, .gitlab, .circleci, .github, .azure] := by decide
  obtain ⟨p, hread, hlasting⟩ :=
    lasting_messyJobs.read_print hsettings (nofun : YamlTarget.github ≠ .azure)
  exact chain_of_lasting hsettings hazure hread hlasting

/-- A job with two services whose images have the same name. -/
def twinImages : String :=
  "jobs:\n  test:\n    docker:\n    - image: node\n    - image: redis:6\n    - image: redis:7\n"

/-- It is read, but its workflow has two services of one name and is not. -/
theorem chain_twinImages : chain {} .circleci twinImages [.github, .gitlab] =
    .error (.malformed .github .notYaml) := by
  decide +kernel

end Conversion
end CiPipelines

import CiPipelines.Model.Node
import CiPipelines.Model.Pipeline
import CiPipelines.Platform
import CiPipelines.Settings

/-!
# Pipeline files

What the readers of the YAML platforms share: the root of a pipeline file is a mapping, an empty
file counts as an empty mapping, and a service without a name is named after its image.
-/

namespace CiPipelines

/-- Why a pipeline file cannot be read. -/
inductive Malformed where
  /-- It is no YAML, or its merge keys cannot be resolved. -/
  | notYaml
  /-- Its root is no mapping. -/
  | noMapping
  deriving DecidableEq, Repr

/-- The wording of the reason. -/
def Malformed.message : Malformed → String
  | .notYaml => "not a YAML document"
  | .noMapping => "expected a mapping at the document root"

/-- The root of a pipeline file. -/
def Node.ofPipelineFile (text : String) : Except Malformed Node :=
  match Node.ofYaml? text with
  | none => .error .notYaml
  | some .null => .ok (.fields [])
  | some (.fields entries) => .ok (.fields entries)
  | some _ => .error .noMapping

/-- A result of which something can be computed is there. -/
theorem exists_ok_of_toOption {ε α β : Type} {result : Except ε α} {f : α → β} {b : β}
    (h : result.toOption.map f = some b) : ∃ a, result = .ok a ∧ f a = b := by
  cases result with
  | error e => cases h
  | ok a => exact ⟨a, rfl, Option.some.inj h⟩

/-- The name of a service that runs an image: the last part of the path, without tag or digest. -/
def Service.nameOfImage (image : String) : String :=
  let path := image.toList
  let last := (path.reverse.takeWhile (· != '/')).reverse
  String.ofList (last.takeWhile fun c => c != ':' && c != '@')

end CiPipelines

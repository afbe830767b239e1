import CiPipelines.Azure.Writer
import CiPipelines.Circleci.Reader
import CiPipelines.Circleci.Writer
import CiPipelines.Github.Reader
import CiPipelines.Github.Writer
import CiPipelines.Gitlab.Reader
import CiPipelines.Gitlab.Writer
import CiPipelines.Jenkins.Reader
import CiPipelines.Jenkins.Writer

/-!
# Conversion

A conversion reads a text as a pipeline of one platform and writes that pipeline for another.
Whether the target can be written is settled before anything is read.
-/

namespace CiPipelines

/-- Why a conversion fails. -/
inductive ConversionError where
  | unsupported (platform : Platform) (role : Role)
  | unknownPlatform (name : String)
  | malformed (platform : Platform) (reason : Malformed)
  deriving DecidableEq, Repr

/-- The wording of a failure. -/
def ConversionError.message : ConversionError → String
  | .unsupported platform role => "unsupported " ++ role.name ++ " platform: " ++ platform.name
  | .unknownPlatform name =>
    "unknown platform '" ++ name ++ "' (expected one of: "
      ++ ", ".intercalate (Platform.all.map Platform.name) ++ ")"
  | .malformed platform reason =>
    "malformed " ++ platform.name ++ " input: " ++ reason.message

namespace Conversion

/-- The platform of a name. -/
def platformNamed (name : String) : Except ConversionError Platform :=
  match Platform.ofName? name with
  | some p => .ok p
  | none => .error (.unknownPlatform name)

/-- Checks that a platform can be used on a side. -/
def require (p : Platform) (role : Role) : Except ConversionError Unit :=
  if p.supports role then .ok () else .error (.unsupported p role)

/-- Reads a text as a pipeline of a platform. -/
def read (settings : Settings) (p : Platform) (text : String) :
    Except ConversionError Pipeline :=
  match p with
  | .github => (Github.read settings text).mapError (.malformed p)
  | .gitlab => (Gitlab.read settings text).mapError (.malformed p)
  | .circleci => (Circleci.read settings text).mapError (.malformed p)
  | .jenkins => .ok (Jenkins.read settings text)
  | .azure | .bitbucket => .error (.unsupported p .source)

/-- Writes a pipeline for a platform. -/
def write (p : Platform) (pipeline : Pipeline) : Except ConversionError String :=
  match p with
  | .github => .ok (Github.write pipeline)
  | .gitlab => .ok (Gitlab.write pipeline)
  | .circleci => .ok (Circleci.write pipeline)
  | .azure => .ok (Azure.write pipeline)
  | .jenkins => .ok (Jenkins.write pipeline)
  | .bitbucket => .error (.unsupported p .target)

/-- Converts a text from one platform to another. -/
def convert (settings : Settings) (source target : Platform) (text : String) :
    Except ConversionError String := do
  require target .target
  write target (← read settings source text)

end Conversion
end CiPipelines

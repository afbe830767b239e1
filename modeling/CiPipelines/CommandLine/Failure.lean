import CiPipelines.Conversion
import CiPipelines.Files.Access

/-!
# Failures of a command

A failure says what was tried and why it did not work, from the outside to the inside.  The cause
of a failed conversion stands both in the sentence that tells of it and at the end.
-/

namespace CiPipelines
namespace CommandLine

/-- Why a file cannot be converted or read as a pipeline. -/
inductive FileFailure where
  | conversion (e : ConversionError)
  | access (path : String) (e : OsError)
  deriving DecidableEq, Repr

/-- The wording of such a failure. -/
def FileFailure.message : FileFailure → String
  | .conversion (.malformed p reason) =>
    (ConversionError.malformed p reason).message ++ ": " ++ reason.message
  | .conversion e => e.message
  | .access path e => "I/O error on " ++ path ++ ": " ++ e.message ++ ": " ++ e.message

/-- Why the settings cannot be loaded. -/
inductive SettingsFailure where
  | unreadable (path : String) (e : OsError)
  | malformed (path : String)
  deriving DecidableEq, Repr

/-- The wording of such a failure. -/
def SettingsFailure.message : SettingsFailure → String
  | .unreadable path e =>
    "failed to read config " ++ path ++ ": " ++ e.message ++ ": " ++ e.message
  | .malformed path =>
    "invalid config " ++ path ++ ": not a settings document: not a settings document"

/-- Why a command fails. -/
inductive Failure where
  | settings (e : SettingsFailure)
  | noSource
  | undetectedInput (path : String)
  | nothingFound (platform : Platform)
  | cannotRead (path : String) (e : OsError)
  | cannotConvert (path : String) (e : FileFailure)
  | cannotParse (path : String) (e : FileFailure)
  | undetected (path : String)
  | cannotCreate (path : String) (e : OsError)
  | cannotSave (path : String) (e : OsError)
  deriving DecidableEq, Repr

/-- The wording of a failure. -/
def Failure.message : Failure → String
  | .settings e => "Failed to load configuration: " ++ e.message
  | .noSource => "--from is required when --input is not given"
  | .undetectedInput path => "Cannot detect the platform of " ++ path ++ "; pass --from"
  | .nothingFound p =>
    "No " ++ p.productName ++ " pipeline found (looked for "
      ++ ", ".intercalate p.usualPaths ++ "); pass --input"
  | .cannotRead path e => "Failed to read pipeline: " ++ path ++ ": " ++ e.message
  | .cannotConvert path e => "Failed to convert " ++ path ++ ": " ++ e.message
  | .cannotParse path e => "Failed to parse " ++ path ++ ": " ++ e.message
  | .undetected path => "Could not detect a platform for: " ++ path
  | .cannotCreate path e => "Failed to create directory: " ++ path ++ ": " ++ e.message
  | .cannotSave path e => "Failed to write completions to: " ++ path ++ ": " ++ e.message

end CommandLine
end CiPipelines

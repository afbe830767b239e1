import CiPipelines.Json.Quote
import CiPipelines.Stored.Record

/-!
# Printing records as JSON

Each item and each field stands on a line of its own, indented by two spaces a level; an empty
list or record stands on the line of its key.
-/

namespace CiPipelines
namespace Json

/-- A new line at an indentation. -/
def newLine (indent : Nat) : String := "\n" ++ String.ofList (List.replicate indent ' ')

mutual

/-- A record on lines that are indented by at least `indent` spaces, but for the first. -/
def print (indent : Nat) : Record → String
  | .text s => quote s
  | .list [] => "[]"
  | .list (item :: rest) =>
    "[" ++ newLine (indent + 2) ++ print (indent + 2) item ++ printItems (indent + 2) rest
      ++ newLine indent ++ "]"
  | .fields [] => "\x7b\x7d"
  | .fields ((key, value) :: rest) =>
    "\x7b" ++ newLine (indent + 2) ++ quote key ++ ": " ++ print (indent + 2) value
      ++ printFields (indent + 2) rest ++ newLine indent ++ "\x7d"

/-- The items after the first one. -/
def printItems (indent : Nat) : List Record → String
  | [] => ""
  | item :: rest => "," ++ newLine indent ++ print indent item ++ printItems indent rest

/-- The fields after the first one. -/
def printFields (indent : Nat) : List (String × Record) → String
  | [] => ""
  | (key, value) :: rest =>
    "," ++ newLine indent ++ quote key ++ ": " ++ print indent value ++ printFields indent rest

end

/-- A pipeline as JSON text. -/
def ofPipeline (p : Pipeline) : String := print 0 p.record ++ "\n"

end Json
end CiPipelines

import CiPipelines.Json.Reader
import CiPipelines.Stored.Format

/-!
# Pipelines stored as JSON

A record is an object, or an array with the values of its fields in order, where fields at the end
may be missing.  Values of unknown fields may be anything.
-/

namespace CiPipelines
namespace Json

/-- A reading that takes nothing from the allowance. -/
def found {β : Type} (x : Option β) : Reading β := liftM x

/-- The text of a string. -/
def text? : Json → Option String
  | .string s => s
  | _ => none

/-- The entries of an object, all of whose keys must have a text. -/
def table? : Json → Option (List (String × Json))
  | .object entries => entries.mapM fun e => e.1.map fun key => (key, e.2)
  | _ => none

/-- The fields of a record. -/
def record? (names : List String) : Json → Option (List (String × Json))
  | .array items => if items.length ≤ names.length then some (names.zip items) else none
  | value => table? value

/-- One of several words: a string, or an object with that key and null. -/
def word? : Json → Option String
  | .string s => s
  | .object [(key, .null)] => key
  | _ => none

mutual

/-- What a value is by itself; all its strings must have a text and its numbers must be finite. -/
def content? : Json → Option Content
  | .null | .bool _ => some .other
  | .number n =>
    match n.natural? with
    | some k => some (.number k)
    | none => if n.isFinite then some .other else none
  | .string s => s.map .text
  | .array items => (contentItems? items).map fun _ => .other
  | .object entries => (contentEntries? entries).map .record

/-- The contents of the items of an array. -/
def contentItems? : List Json → Option Unit
  | [] => some ()
  | v :: rest => (content? v).bind fun _ => contentItems? rest

/-- The contents of the entries of an object. -/
def contentEntries? : List (Option String × Json) → Option (List (Content × Content))
  | [] => some []
  | (key, v) :: rest => do
    let key ← key
    let v ← content? v
    return (.text key, v) :: (← contentEntries? rest)

end

/-- How deep a value inside a step may be nested. -/
def maxStepDepth : Nat := 122

/-- Pipelines in JSON. -/
def format : Format Json where
  text value := found value.text?
  optional
    | .null => pure none
    | value => pure (some value)
  list
    | .array items => pure items
    | _ => failure
  record names value := found (record? names value)
  table value := found value.table?
  word value := found value.word?
  content value := if value.depth ≤ maxStepDepth then found value.content? else failure

/-- The pipeline that a JSON text holds. -/
def pipeline? (text : String) : Option Pipeline := do
  let value ← Json.ofText? text.toList
  let (p, _) ← (Stored.pipeline format value).run 0
  return p

end Json
end CiPipelines

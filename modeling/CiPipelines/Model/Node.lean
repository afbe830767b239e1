import CiPipelines.Yaml.Merge
import CiPipelines.Model.Vars

/-!
# Configuration files as plain data

A `Node` is what a pipeline reader sees of a YAML file: nothing, a scalar as text, a list, or
fields in the order of the file.  Tags are dropped, merge keys are resolved, and fields whose key
is no text, truth value or number are left out.
-/

namespace CiPipelines

/-- A part of a configuration file. -/
inductive Node where
  | null
  | scalar (text : String)
  | list (items : List Node)
  | fields (entries : List (String × Node))

namespace Node

/-- The text of a scalar value. -/
def scalarText? : Yaml.Value → Option String
  | .text s => some s
  | .bool b => some (if b then "true" else "false")
  | .integer n => some (toString n)
  | .real x => some (String.ofList x.text)
  | .tagged _ v => scalarText? v
  | _ => none

mutual

/-- The plain data of a value. -/
def ofValue : Yaml.Value → Node
  | .null => .null
  | .sequence items => .list (ofItems items)
  | .mapping entries => .fields (ofEntries entries)
  | .tagged _ v => ofValue v
  | .bool b => .scalar (if b then "true" else "false")
  | .integer n => .scalar (toString n)
  | .real x => .scalar (String.ofList x.text)
  | .text s => .scalar s

/-- The plain data of the items of a sequence. -/
def ofItems : List Yaml.Value → List Node
  | [] => []
  | v :: rest => ofValue v :: ofItems rest

/-- The plain data of the entries of a mapping, as far as their keys have a text. -/
def ofEntries : List (Yaml.Value × Yaml.Value) → List (String × Node)
  | [] => []
  | (k, v) :: rest =>
    match scalarText? k with
    | some key => (key, ofValue v) :: ofEntries rest
    | none => ofEntries rest

end

/-- The plain data of a YAML text, if it can be read. -/
def ofYaml? (text : String) : Option Node := do
  let v ← Yaml.Value.ofText? text.toList
  return ofValue (← v.resolveMerges?)

/-- The fields, none unless there are fields. -/
def entries : Node → List (String × Node)
  | .fields entries => entries
  | _ => []

/-- The items, none unless this is a list. -/
def items : Node → List Node
  | .list items => items
  | _ => []

/-- The text of a scalar. -/
def text? : Node → Option String
  | .scalar s => some s
  | _ => none

/-- True when there are fields, perhaps none of them. -/
def isFields : Node → Bool
  | .fields _ => true
  | _ => false

/-- The first field with the given key. -/
def get? (n : Node) (key : String) : Option Node := n.entries.lookup key

/-- The text of the field with the given key. -/
def textAt? (n : Node) (key : String) : Option String := (n.get? key).bind text?

/-- A scalar, or the scalars of a list, as texts. -/
def texts : Node → List String
  | .scalar s => [s]
  | .list items => items.filterMap text?
  | _ => []

/-- The texts of the field with the given key. -/
def textsAt (n : Node) (key : String) : List String := ((n.get? key).map texts).getD []

/-- The items of the field with the given key. -/
def itemsAt (n : Node) (key : String) : List Node := ((n.get? key).map items).getD []

/-- The entries of the field with the given key. -/
def entriesAt (n : Node) (key : String) : List (String × Node) :=
  ((n.get? key).map entries).getD []

/-- The fields that are scalars, or empty, as variables. -/
def vars (n : Node) : Vars :=
  Vars.ofList <| n.entries.filterMap fun (key, value) =>
    match value with
    | .scalar s => some (key, s)
    | .null => some (key, "")
    | _ => none

/-- The variables of the field with the given key. -/
def varsAt (n : Node) (key : String) : Vars := ((n.get? key).map vars).getD .empty

end Node
end CiPipelines

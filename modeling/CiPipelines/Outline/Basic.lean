import CiPipelines.Model.Vars
import CiPipelines.Outline.Scalar

/-!
# Hand-laid documents

An outline is a YAML document together with its layout: which scalars may take several lines, and
where comments and empty lines stand.  The printer indents each level by two spaces and quotes
keys and scalars as needed, so no text of a pipeline can change the shape of a document.
-/

namespace CiPipelines

/-- A line of a mapping: a field, or a line that does not count. -/
inductive Outline.Line (α : Type) where
  | field (key : String) (body : α)
  | comment (text : String)
  | empty

/-- A document and its layout. -/
inductive Outline where
  /-- Nothing, which reads as null. -/
  | nothing
  /-- A word of the format, written as it is. -/
  | word (text : String)
  /-- A text on one line. -/
  | text (s : String)
  /-- A text that may take several lines. -/
  | value (s : String)
  | list (items : List Outline)
  | fields (lines : List (Outline.Line Outline))

namespace Outline

/-- The spaces that indent a line. -/
def pad (indent : Nat) : String := String.ofList (List.replicate indent ' ')

mutual

/-- What follows a colon or dash at column `indent`. -/
def printBody (indent : Nat) : Outline → String
  | .nothing => "\n"
  | .word w => " " ++ w ++ "\n"
  | .text s => " " ++ inline s ++ "\n"
  | .value s => valueText s (indent + 2)
  | .list items => "\n" ++ printItems (indent + 2) items
  | .fields lines => "\n" ++ printLines (indent + 2) (pad (indent + 2)) lines

/-- The items of a list whose dashes stand at column `indent`.  The first field of an item stands
on the line of its dash. -/
def printItems (indent : Nat) : List Outline → String
  | [] => ""
  | .fields lines :: rest =>
    pad indent ++ "- " ++ printLines (indent + 2) "" lines ++ printItems indent rest
  | item :: rest => pad indent ++ "-" ++ printBody indent item ++ printItems indent rest

/-- The lines of a mapping whose keys stand at column `indent`; `lead` stands in front of the
first line. -/
def printLines (indent : Nat) (lead : String) : List (Line Outline) → String
  | [] => ""
  | .field key body :: rest =>
    lead ++ inline key ++ ":" ++ printBody indent body ++ printLines indent (pad indent) rest
  | .comment note :: rest =>
    lead ++ "# " ++ note ++ "\n" ++ printLines indent (pad indent) rest
  | .empty :: rest => "\n" ++ printLines indent (pad indent) rest

end

/-- The text of a document made of lines. -/
def print (lines : List (Line Outline)) : String := printLines 0 "" lines

/-- A field with a list of texts; none for an empty list. -/
def listField (key : String) (items : List String) : List (Line Outline) :=
  if items.isEmpty then [] else [.field key (.list (items.map .text))]

/-- The fields for some variables. -/
def varLines (vars : Vars) : List (Line Outline) :=
  vars.entries.map fun e => .field e.1 (.value e.2)

/-- A field with some variables; none if there are no variables. -/
def varsField (key : String) (vars : Vars) : List (Line Outline) :=
  if vars.isEmpty then [] else [.field key (.fields (varLines vars))]

/-- A field that is there only with a text, on one line. -/
def textField (key : String) (s : Option String) : List (Line Outline) :=
  s.toList.map fun s => .field key (.text s)

/-- A field that is there only with a text, perhaps of several lines. -/
def valueField (key : String) (s : Option String) : List (Line Outline) :=
  s.toList.map fun s => .field key (.value s)

end Outline
end CiPipelines

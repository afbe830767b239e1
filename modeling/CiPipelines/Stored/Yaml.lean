import CiPipelines.Settings
import CiPipelines.Stored.Format
import CiPipelines.Yaml.Value

/-!
# Pipelines and settings stored as YAML

Where a text is wanted, any scalar will do, as it is written.  An empty scalar is an empty list or
an empty record where one of these is wanted.  Merge keys mean nothing here.
-/

namespace CiPipelines
namespace Yaml
namespace Document

/-- The text of a scalar. -/
def text (d : Document) (t : Tree Nat) : Reading String := do
  match ← d.follow t with
  | .scalar _ _ s => pure s
  | _ => failure

/-- A node that may be null: a plain scalar with a null word or nothing, or one that is tagged as
null. -/
def optional (d : Document) (t : Tree Nat) : Reading (Option (Tree Nat)) := do
  let t ← d.follow t
  match t with
  | .scalar p .plain s =>
    match p.tag with
    | none => pure (if s.isEmpty || Value.nullWords.contains s then none else some t)
    | some tag =>
      if tag == Value.coreTag "null" then
        if Value.nullWords.contains s then pure none else failure
      else pure (some t)
  | _ => pure (some t)

/-- The items of a sequence. -/
def list (d : Document) (t : Tree Nat) : Reading (List (Tree Nat)) := do
  match ← d.follow t with
  | .sequence _ items => pure items
  | .scalar _ _ "" => pure []
  | _ => failure

/-- The entries of a mapping, whose keys must be scalars. -/
def table (d : Document) (t : Tree Nat) : Reading (List (String × Tree Nat)) := do
  match ← d.follow t with
  | .mapping _ entries => entries.mapM fun e => do return (← d.text e.1, e.2)
  | .scalar _ _ "" => pure []
  | _ => failure

/-- One of several words: a scalar, or nothing with the word as its tag. -/
def word (d : Document) (t : Tree Nat) : Reading String := do
  match ← d.follow t with
  | .scalar p style s =>
    match Value.ownTag? p.tag with
    | some word =>
      if s.isEmpty || (style == .plain && Value.nullWords.contains s) then pure word else failure
    | none => pure s
  | _ => failure

/-- What a scalar is by itself.  A minus sign makes any number, also zero, no natural one. -/
def scalarContent? (tag : Option Uri) (style : Style) (s : String) : Option Content :=
  (Value.ofScalar? tag style s).map fun
    | .text s => .text s
    | .integer (.ofNat n) => if s.toList.head? == some '-' then .other else .number n
    | _ => .other

/-- What a node is by itself, with collections nested at most `levels` deep and without tags of
one's own. -/
def content (d : Document) : Nat → Tree Nat → Reading Content
  | levels, t => do
    match ← d.follow t, levels with
    | .scalar p style s, _ =>
      if (Value.ownTag? p.tag).isSome then failure
      else liftM (scalarContent? p.tag style s)
    | .sequence p items, levels + 1 =>
      if (Value.ownTag? p.tag).isSome then failure
      else do
        let _ ← items.mapM (d.content levels)
        return .other
    | .mapping p entries, levels + 1 =>
      if (Value.ownTag? p.tag).isSome then failure
      else return .record (← entries.mapM fun e => do
        return (← d.content levels e.1, ← d.content levels e.2))
    | _, _ => failure

/-- How deep a value inside a step may be nested. -/
def maxStepDepth : Nat := 123

/-- Pipelines in YAML. -/
def format (d : Document) : Format (Tree Nat) where
  text := d.text
  optional := d.optional
  list := d.list
  record _ := d.table
  table := d.table
  word := d.word
  content := d.content maxStepDepth

end Document

/-- The pipeline that a YAML text holds. -/
def pipeline? (text : String) : Option Pipeline := do
  let d ← Document.ofText? text.toList
  let (p, _) ← (Stored.pipeline d.format d.root).run d.allowance
  return p

end Yaml

namespace Settings

/-- The settings in a record, with the defaults for what is missing. -/
def ofDocument (d : Yaml.Document) : Reading Settings := do
  let entries ← d.table d.root
  let standard : Settings := {}
  let logLevel ← Stored.withDefault entries "log_level" standard.logLevel d.text
  let runner ← Stored.withDefault entries "default_runner" standard.defaultRunner d.text
  let branch ← Stored.withDefault entries "default_branch" standard.defaultBranch d.text
  return ⟨logLevel, runner, branch⟩

/-- The settings that a YAML text holds; a blank text holds the defaults. -/
def ofYaml? (text : String) : Option Settings :=
  if Text.isBlank text.toList then some {}
  else do
    let d ← Yaml.Document.ofText? text.toList
    let (s, _) ← (ofDocument d).run d.allowance
    return s

end Settings
end CiPipelines

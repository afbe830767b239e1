import CiPipelines.Yaml.Value

/-!
# Merge keys

The value of a merge key `<<` is a mapping, or a sequence of mappings, whose entries are added to
the mapping around it.  An entry that is there already is kept, so the entries written in the
mapping itself win, and of several merged mappings the first one that has a key.  The last entry
of the mapping moves to where the merge key was, and the added entries follow at the end.  A merge
key that comes from a merged mapping is an entry like any other.
-/

namespace CiPipelines
namespace Yaml

/-- The entries of a mapping, in order. -/
abbrev Entries := List (Value × Value)

namespace Entries

/-- Whether the key of an entry is the merge key. -/
def isMerge (entry : Value × Value) : Bool :=
  match entry.1 with
  | .text s => s == "<<"
  | _ => false

/-- The value of the merge key, if there is one. -/
def merge? (entries : Entries) : Option Value :=
  (entries.find? isMerge).map (·.2)

/-- Takes out the merge key; the last entry moves into its place. -/
def takeMerge (entries : Entries) : Entries :=
  let before := entries.takeWhile fun e => !isMerge e
  match entries.dropWhile fun e => !isMerge e with
  | [] => entries
  | _ :: after =>
    match after.getLast? with
    | none => before
    | some last => before ++ last :: after.dropLast

/-- Adds the entries whose keys are not there yet. -/
def addMissing (entries added : Entries) : Entries :=
  added.foldl (fun acc e => if acc.any fun other => e.1.same other.1 then acc else acc ++ [e])
    entries

end Entries

namespace Value

/-- The entries of an untagged mapping. -/
def entries? : Value → Option Entries
  | .mapping entries => some entries
  | _ => none

/-- The mappings that the value of a merge key names. -/
def merged? : Value → Option (List Entries)
  | .mapping entries => some [entries]
  | .sequence items => items.mapM entries?
  | _ => none

/-- The entries of a mapping after its merge key has been resolved. -/
def resolveEntries? (entries : Entries) : Option Entries :=
  match Entries.merge? entries with
  | none => some entries
  | some source => do
    let added ← source.merged?
    -- The merge key goes first, so that it does not count as an entry that is there already.
    return added.foldl Entries.addMissing (Entries.takeMerge entries)

mutual

/-- How deep a value is nested. -/
def depth : Value → Nat
  | .sequence items => depthOfItems items + 1
  | .mapping entries => depthOfEntries entries + 1
  | .tagged _ v => v.depth + 1
  | _ => 1

/-- The depth of the deepest item. -/
def depthOfItems : List Value → Nat
  | [] => 0
  | v :: rest => max v.depth (depthOfItems rest)

/-- The depth of the deepest key or value. -/
def depthOfEntries : List (Value × Value) → Nat
  | [] => 0
  | (k, v) :: rest => max (max k.depth v.depth) (depthOfEntries rest)

end

/-- Resolves the merge keys of a value at most `levels` deep, from the outside to the inside.
Keys are left as they are. -/
def resolve? : Nat → Value → Option Value
  | levels + 1, .sequence items => do
    return .sequence (← items.mapM (resolve? levels))
  | levels + 1, .mapping entries => do
    let entries ← resolveEntries? entries
    let entries ← entries.mapM fun e => do return (e.1, ← resolve? levels e.2)
    return .mapping entries
  | levels + 1, .tagged tag v => do
    return .tagged tag (← resolve? levels v)
  | _, v => some v

/-- Resolves the merge keys of a value. -/
def resolveMerges? (v : Value) : Option Value :=
  resolve? v.depth v

end Value
end Yaml
end CiPipelines

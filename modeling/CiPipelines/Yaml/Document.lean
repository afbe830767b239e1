import CiPipelines.Yaml.TreeReader

/-!
# Documents: what aliases refer to

Each anchor is numbered by how many different anchor names were in use before it, and an alias
gets the number that its name had last.  An alias then refers to the last node with its number,
in document order.  As long as no name is used twice, that is simply the node that the name
stands at.
-/

namespace CiPipelines
namespace Yaml

/-- The numbers of the anchor names in use, each name once. -/
abbrev AnchorNames := List (String × Nat)

/-- Numbers the next anchor. -/
def AnchorNames.add (names : AnchorNames) (name : String) : Nat × AnchorNames :=
  (names.length, (name, names.length) :: names.filter fun entry => entry.1 != name)

/-- Numbers the anchor of a node, if it has one. -/
def Properties.number (properties : Properties String) (names : AnchorNames) :
    Properties Nat × AnchorNames :=
  match properties.anchor with
  | some name =>
    let (n, names) := names.add name
    (⟨some n, properties.tag⟩, names)
  | .none => (⟨.none, properties.tag⟩, names)

namespace Tree

mutual

/-- Numbers the anchors and aliases of a tree; fails at an alias of an unknown name. -/
def number (names : AnchorNames) : Tree String → Option (Tree Nat × AnchorNames)
  | .alias name => (names.lookup name).map fun n => (.alias n, names)
  | .scalar p style text =>
    let (p, names) := p.number names
    some (.scalar p style text, names)
  | .sequence p items => do
    let (p, names) := p.number names
    let (items, names) ← numberItems names items
    return (.sequence p items, names)
  | .mapping p entries => do
    let (p, names) := p.number names
    let (entries, names) ← numberEntries names entries
    return (.mapping p entries, names)

/-- Numbers the anchors and aliases of a list of items. -/
def numberItems (names : AnchorNames) :
    List (Tree String) → Option (List (Tree Nat) × AnchorNames)
  | [] => some ([], names)
  | item :: rest => do
    let (item, names) ← item.number names
    let (rest, names) ← numberItems names rest
    return (item :: rest, names)

/-- Numbers the anchors and aliases of a list of entries. -/
def numberEntries (names : AnchorNames) :
    List (Tree String × Tree String) → Option (List (Tree Nat × Tree Nat) × AnchorNames)
  | [] => some ([], names)
  | (key, value) :: rest => do
    let (key, names) ← key.number names
    let (value, names) ← value.number names
    let (rest, names) ← numberEntries names rest
    return ((key, value) :: rest, names)

end

end Tree

/-- A document whose aliases are numbered. -/
structure Document where
  root : Tree Nat
  /-- The nodes with an anchor, under their numbers, the last one first. -/
  targets : List (Nat × Tree Nat)
  /-- How many aliases may be followed in all. -/
  allowance : Nat

namespace Document

/-- The document with the given root.  A hundred aliases may be followed for each mark. -/
def ofRoot (root : Tree Nat) : Document :=
  let nodes := root.nodes
  ⟨root,
    (nodes.filterMap fun t => t.anchor?.map fun n => (n, t)).reverse,
    100 * nodes.foldl (fun n t => n + t.marks) 0⟩

/-- The document of a stream that holds none: an empty node. -/
def void : Document := ofRoot .empty

/-- The node that an alias refers to; another node stands for itself.  The state counts the
aliases that may still be followed. -/
def follow (d : Document) (t : Tree Nat) : StateT Nat Option (Tree Nat) :=
  match t with
  | .alias n => fun left =>
    match left, d.targets.lookup n with
    | left + 1, some target => some (target, left)
    | _, _ => none
  | t => pure t

/-- Reads a text with at most one document; without one it is void. -/
def ofText? (text : List Char) : Option Document := do
  match ← readStream? (← tokens? text) with
  | none => some void
  | some tree => do
    let (root, _) ← tree.number []
    return ofRoot root

end Document
end Yaml
end CiPipelines

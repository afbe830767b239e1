import CiPipelines.Yaml.Token

/-!
# Syntax trees

A syntax tree keeps how each node is written: its style, tag and anchor, and aliases as such.
Names of anchors are of a type `α`: text as they are written, and numbers once `Tree.number` has
told apart anchors of one name.
-/

namespace CiPipelines
namespace Yaml

/-- The anchor and tag in front of a node. -/
structure Properties (α : Type) where
  anchor : Option α
  tag : Option Uri
  deriving DecidableEq, Repr

namespace Properties

/-- Neither anchor nor tag. -/
def none {α : Type} : Properties α := ⟨.none, .none⟩

end Properties

/-- A node as it is written. -/
inductive Tree (α : Type) where
  | alias (target : α)
  | scalar (properties : Properties α) (style : Style) (text : String)
  | sequence (properties : Properties α) (items : List (Tree α))
  | mapping (properties : Properties α) (entries : List (Tree α × Tree α))

namespace Tree

/-- A node of which nothing is written. -/
def empty {α : Type} : Tree α := .scalar .none .plain ""

/-- The anchor of a node. -/
def anchor? {α : Type} : Tree α → Option α
  | .alias _ => .none
  | .scalar p _ _ => p.anchor
  | .sequence p _ => p.anchor
  | .mapping p _ => p.anchor

mutual

/-- The node and all nodes below it, in document order. -/
def nodes {α : Type} : Tree α → List (Tree α)
  | .alias target => [.alias target]
  | .scalar p style text => [.scalar p style text]
  | .sequence p items => .sequence p items :: nodesOfItems items
  | .mapping p entries => .mapping p entries :: nodesOfEntries entries

/-- The nodes of a list of items. -/
def nodesOfItems {α : Type} : List (Tree α) → List (Tree α)
  | [] => []
  | item :: rest => item.nodes ++ nodesOfItems rest

/-- The nodes of a list of entries, each key in front of its value. -/
def nodesOfEntries {α : Type} : List (Tree α × Tree α) → List (Tree α)
  | [] => []
  | (key, value) :: rest => key.nodes ++ value.nodes ++ nodesOfEntries rest

end

/-- How many marks a node needs in a stream: one for an alias or scalar and two for the ends of
a collection. -/
def marks {α : Type} : Tree α → Nat
  | .alias _ | .scalar _ _ _ => 1
  | .sequence _ _ | .mapping _ _ => 2

end Tree
end Yaml
end CiPipelines

import CiPipelines.Yaml.Tag

/-!
# Tokens

Block collections have no brackets in the text.  Their start and end tokens come from the
indentation, and the `key` token in front of a mapping key comes from the colon after it.
-/

namespace CiPipelines
namespace Yaml

/-- How a scalar is written. -/
inductive Style where
  | plain
  | singleQuoted
  | doubleQuoted
  | literal
  | folded
  deriving DecidableEq, Repr

/-- A token of a YAML stream. -/
inductive Token where
  | directive (d : Directive)
  | documentStart
  | documentEnd
  | blockSequence
  | blockMapping
  | blockEnd
  | openSequence
  | closeSequence
  | openMapping
  | closeMapping
  /-- The dash in front of an item of a block sequence. -/
  | dash
  | comma
  | key
  | value
  | alias (name : String)
  | anchor (name : String)
  | tag (word : TagWord)
  | scalar (style : Style) (text : String)
  deriving DecidableEq, Repr

end Yaml
end CiPipelines

import CiPipelines.Yaml.Cursor

/-!
# Gaps between the words of a scalar

A scalar that spans several lines is read as one text: white space at the end and at the start
of a line is dropped, a single line feed turns into a space, and of several line breaks the
first is dropped.  A first break that is no line feed stays in any case.
-/

namespace CiPipelines
namespace Yaml

/-- What stands between two pieces of text: white space on one line, or line breaks.  The first
break is absent when it was escaped. -/
inductive Gap where
  | blanks (text : List Char)
  | breaks (first : Option Char) (more : List Char)
  deriving DecidableEq, Repr

namespace Gap

/-- No gap at all. -/
def empty : Gap := .blanks []

/-- Extends a gap by a space or a tab, which counts only before the first line break. -/
def addBlank : Gap → Char → Gap
  | .blanks text, c => .blanks (text ++ [c])
  | .breaks first more, _ => .breaks first more

/-- Extends a gap by a line break. -/
def addBreak : Gap → Char → Gap
  | .blanks _, c => .breaks (some c) []
  | .breaks first more, c => .breaks first (more ++ [c])

/-- True when the gap holds a line break. -/
def hasBreak : Gap → Bool
  | .blanks _ => false
  | .breaks _ _ => true

/-- True when nothing stands between. -/
def isEmpty : Gap → Bool
  | .blanks text => text.isEmpty
  | .breaks _ _ => false

/-- The text that the gap stands for. -/
def fold : Gap → List Char
  | .blanks text => text
  | .breaks none more => more
  | .breaks (some '\n') [] => [' ']
  | .breaks (some '\n') more => more
  | .breaks (some c) more => c :: more

@[simp] theorem fold_empty : empty.fold = [] := rfl

end Gap
end Yaml
end CiPipelines

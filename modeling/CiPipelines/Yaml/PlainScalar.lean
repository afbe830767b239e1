import CiPipelines.Yaml.Gap

/-!
# Plain scalars

A plain scalar has no quotes.  It ends before a comment, before a colon that is followed by
white space, before a document mark, in a flow collection before a flow indicator, and in a
block before a line that is indented less than the margin of the block.
-/

namespace CiPipelines
namespace Yaml

/-- A plain scalar that has been read. -/
structure PlainScalar where
  text : List Char
  /-- Where reading goes on, after the white space that follows the scalar. -/
  next : Cursor
  /-- Whether that white space holds a line break. -/
  onNewLine : Bool
  deriving DecidableEq, Repr

/-- The scalar ends before `c`, which is neither a blank nor a break and is followed by `rest`. -/
def endsPlain (inFlow : Bool) (margin : Nat) (gap : Gap) (column : Nat) (c : Char)
    (rest : List Char) : Bool :=
  (!inFlow && gap.hasBreak && column < margin)
    || atDocumentMark column (c :: rest)
    || (c == '#' && !gap.isEmpty)
    || (c == ':' && startsBlank rest)
    || (inFlow && isFlowIndicator c)

/-- In a flow collection a colon must not touch an indicator that follows it. -/
def colonTouches (inFlow : Bool) (c : Char) (rest : List Char) : Bool :=
  inFlow && c == ':' && match rest with
    | d :: _ => d == '?' || isFlowIndicator d
    | [] => false

/-- Reads on after the characters `read` (last first) and a gap.  Fails at a tab that stands in
the indentation and at a colon that touches an indicator. -/
def readPlain (inFlow : Bool) (margin : Nat) (read : List Char) (gap : Gap) (place : Place) :
    List Char → Option PlainScalar
  | [] => some ⟨read.reverse, ⟨[], place⟩, gap.hasBreak⟩
  | '\r' :: '\n' :: rest =>
    readPlain inFlow margin read (gap.addBreak '\n') (place.newLine 2) rest
  | c :: rest =>
    if isBreak c then
      readPlain inFlow margin read (gap.addBreak (breakText c)) (place.newLine 1) rest
    else if isBlank c then
      if c == '\t' && gap.hasBreak && place.column < margin then none
      else readPlain inFlow margin read (gap.addBlank c) (place.forward 1) rest
    else if endsPlain inFlow margin gap place.column c rest then
      some ⟨read.reverse, ⟨c :: rest, place⟩, gap.hasBreak⟩
    else if colonTouches inFlow c rest then none
    else readPlain inFlow margin (c :: (gap.fold.reverse ++ read)) .empty (place.forward 1) rest

/-- Reads the plain scalar that starts at the cursor. -/
def Cursor.plainScalar? (c : Cursor) (inFlow : Bool) (margin : Nat) : Option PlainScalar :=
  readPlain inFlow margin [] .empty c.place c.rest

end Yaml
end CiPipelines

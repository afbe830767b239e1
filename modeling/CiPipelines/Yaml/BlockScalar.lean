import CiPipelines.Yaml.Cursor

/-!
# Block scalars

A block scalar is a header line, `|` for literal and `>` for folded text, and the lines below it
that are indented by at least the indentation of the scalar.  The header may give that
indentation as a digit, relative to the surrounding block, and may say what happens to the line
breaks at the end: all are kept after `+`, none after `-`, and one otherwise.  Without a digit
the first line that is not empty sets the indentation.
-/

namespace CiPipelines
namespace Yaml

/-- What happens to the line breaks at the end of a block scalar. -/
inductive Chomping where
  | strip
  | clip
  | keep
  deriving DecidableEq, Repr

/-- The header of a block scalar. -/
structure BlockHeader where
  chomping : Chomping
  /-- The indentation digit, if one is given. -/
  indent : Option Nat
  deriving DecidableEq, Repr

/-- Reads a chomping indicator. -/
def chomping? : List Char → Option (Chomping × List Char)
  | '+' :: rest => some (.keep, rest)
  | '-' :: rest => some (.strip, rest)
  | _ => none

/-- Reads an indentation digit; a zero is refused. -/
def indentDigit : List Char → Option (Option Nat × List Char)
  | c :: rest =>
    if c == '0' then none
    else if c.isDigit then some (some (c.toNat - '0'.toNat), rest)
    else some (none, c :: rest)
  | [] => some (none, [])

/-- Reads the two indicators of a header, in either order. -/
def blockHeader? (text : List Char) : Option (BlockHeader × List Char) :=
  match chomping? text with
  | some (chomping, rest) => do
    let (indent, rest) ← indentDigit rest
    return (⟨chomping, indent⟩, rest)
  | none => do
    let (indent, rest) ← indentDigit text
    match indent, chomping? rest with
    | some n, some (chomping, rest) => return (⟨chomping, some n⟩, rest)
    | _, _ => return (⟨.clip, indent⟩, rest)

/-- The empty lines before the text of a scalar whose indentation is to be found. -/
structure LeadingLines where
  breaks : List Char
  /-- The largest column that was reached by spaces. -/
  column : Nat
  next : Cursor
  deriving DecidableEq, Repr

/-- Skips empty lines and the spaces before the first text; a tab in front of it is refused. -/
def readLeadingLines (breaks : List Char) (column : Nat) (place : Place) :
    List Char → Option LeadingLines
  | [] => some ⟨breaks, max column place.column, ⟨[], place⟩⟩
  | '\r' :: '\n' :: rest =>
    readLeadingLines (breaks ++ ['\n']) (max column place.column) (place.newLine 2) rest
  | c :: rest =>
    if c == ' ' then readLeadingLines breaks column (place.forward 1) rest
    else if c == '\t' then none
    else if isBreak c then
      readLeadingLines (breaks ++ [breakText c]) (max column place.column) (place.newLine 1) rest
    else some ⟨breaks, max column place.column, ⟨c :: rest, place⟩⟩

/-- What has been read of a block scalar. -/
structure BlockText where
  /-- The characters, last first. -/
  read : List Char
  /-- The break that ended the last line with text. -/
  lineEnd : List Char
  /-- Whether that line started with a blank. -/
  startedBlank : Bool
  /-- The breaks of the empty lines after it. -/
  emptyLines : List Char
  /-- Whether a line with text is being read. -/
  inLine : Bool
  deriving DecidableEq, Repr

namespace BlockText

/-- Nothing read but empty lines. -/
def ofLeading (breaks : List Char) : BlockText :=
  ⟨[], [], false, breaks, false⟩

/-- Starts a line with text, at its first character `c`.  In folded text a line feed between two
lines that start with no blank becomes a space, or nothing if empty lines follow it. -/
def startLine (folded : Bool) (b : BlockText) (c : Char) : BlockText :=
  let joins := folded && b.lineEnd == ['\n'] && !b.startedBlank && !isBlank c
  let lineEnd := if joins then (if b.emptyLines.isEmpty then [' '] else []) else b.lineEnd
  ⟨c :: ((lineEnd ++ b.emptyLines).reverse ++ b.read), [], isBlank c, [], true⟩

/-- Adds a character to the line. -/
def add (b : BlockText) (c : Char) : BlockText :=
  { b with read := c :: b.read }

/-- Ends the line, or adds an empty one. -/
def addBreak (b : BlockText) (c : Char) : BlockText :=
  if b.inLine then { b with lineEnd := [c], inLine := false }
  else { b with emptyLines := b.emptyLines ++ [c] }

/-- The whole text, with as many breaks at its end as the header asks for. -/
def finish (b : BlockText) (chomping : Chomping) : List Char :=
  b.read.reverse ++ match chomping with
    | .strip => []
    | .clip => b.lineEnd
    | .keep => b.lineEnd ++ b.emptyLines

end BlockText

/-- Reads the lines of a block scalar that is indented by `indent` columns.  It ends at the first
line with text that is indented less; a tab in the indentation is refused. -/
def readBlockLines (folded : Bool) (indent : Nat) (block : BlockText) (place : Place) :
    List Char → Option (BlockText × Cursor)
  | [] => some (block, ⟨[], place⟩)
  | '\r' :: '\n' :: rest =>
    readBlockLines folded indent (block.addBreak '\n') (place.newLine 2) rest
  | c :: rest =>
    if isBreak c then
      readBlockLines folded indent (block.addBreak (breakText c)) (place.newLine 1) rest
    else if block.inLine then
      readBlockLines folded indent (block.add c) (place.forward 1) rest
    else if place.column < indent then
      if c == ' ' then readBlockLines folded indent block (place.forward 1) rest
      else if c == '\t' then none
      else some (block, ⟨c :: rest, place⟩)
    else if place.column == indent then
      readBlockLines folded indent (block.startLine folded c) (place.forward 1) rest
    else some (block, ⟨c :: rest, place⟩)

/-- Reads the block scalar whose indicator is at the cursor, inside a block with the margin
`margin`. -/
def Cursor.blockScalar? (c : Cursor) (folded : Bool) (margin : Nat) :
    Option (List Char × Cursor) := do
  let inner := c.skip 1
  let (header, rest) ← blockHeader? inner.rest
  let afterHeader : Cursor :=
    ⟨rest, inner.place.forward (inner.rest.length - rest.length)⟩
  -- Only blanks and a comment may stand between the header and the end of its line.
  let lineEnd := afterHeader.skipBlanks.skipComment
  guard (startsBreak lineEnd.rest)
  let body := lineEnd.skipBreak
  let (block, next) ← match header.indent with
    | some n =>
      readBlockLines folded (margin - 1 + n) (.ofLeading []) body.place body.rest
    | none => do
      let leading ← readLeadingLines [] 0 body.place body.rest
      readBlockLines folded (max leading.column (max margin 1)) (.ofLeading leading.breaks)
        leading.next.place leading.next.rest
  return (block.finish header.chomping, next)

end Yaml
end CiPipelines

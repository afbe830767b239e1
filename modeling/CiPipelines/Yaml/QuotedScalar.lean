import CiPipelines.Yaml.Gap

/-!
# Quoted scalars

In single quotes a quote is written twice and nothing else is special.  In double quotes a
backslash starts an escape: one letter for a common character, `x`, `u` or `U` and hexadecimal
digits for any other, or a line break that is to leave no trace.  Both kinds may span lines,
folded as `Gap` says, but no document mark may stand at the start of such a line.
-/

namespace CiPipelines
namespace Yaml

/-- Reads a single-quoted scalar after its opening quote. -/
def readSingleQuoted (read : List Char) (gap : Gap) (place : Place) :
    List Char → Option (List Char × Cursor)
  | [] => none
  | '\r' :: '\n' :: rest => readSingleQuoted read (gap.addBreak '\n') (place.newLine 2) rest
  | '\'' :: '\'' :: rest =>
    readSingleQuoted ('\'' :: (gap.fold.reverse ++ read)) .empty (place.forward 2) rest
  | c :: rest =>
    if isBreak c then
      readSingleQuoted read (gap.addBreak (breakText c)) (place.newLine 1) rest
    else if isBlank c then
      readSingleQuoted read (gap.addBlank c) (place.forward 1) rest
    else if atDocumentMark place.column (c :: rest) then none
    else if c == '\'' then
      some ((gap.fold.reverse ++ read).reverse, ⟨rest, place.forward 1⟩)
    else
      readSingleQuoted (c :: (gap.fold.reverse ++ read)) .empty (place.forward 1) rest

/-- The character that a one-letter escape stands for. -/
def escapedChar? : Char → Option Char
  | '0' => some '\x00'
  | 'a' => some '\x07'
  | 'b' => some '\x08'
  | 't' => some '\t'
  | '\t' => some '\t'
  | 'n' => some '\n'
  | 'v' => some '\x0b'
  | 'f' => some '\x0c'
  | 'r' => some '\r'
  | 'e' => some '\x1b'
  | ' ' => some ' '
  | '"' => some '"'
  | '/' => some '/'
  | '\\' => some '\\'
  | 'N' => some '\u0085'
  | '_' => some '\u00a0'
  | 'L' => some '\u2028'
  | 'P' => some '\u2029'
  | _ => none

/-- The character that an escape with hexadecimal digits stands for. -/
def escapedCode? (digits : List Char) : Option Char :=
  (Text.hexNumber? digits).bind scalarValue?

/-- Reads a double-quoted scalar after its opening quote. -/
def readDoubleQuoted (read : List Char) (gap : Gap) (place : Place) :
    List Char → Option (List Char × Cursor)
  | [] => none
  | '\r' :: '\n' :: rest => readDoubleQuoted read (gap.addBreak '\n') (place.newLine 2) rest
  | '\\' :: '\r' :: '\n' :: rest =>
    readDoubleQuoted (gap.fold.reverse ++ read) (.breaks none []) (place.newLine 3) rest
  | '\\' :: 'x' :: d₁ :: d₂ :: rest =>
    match escapedCode? [d₁, d₂] with
    | some c =>
      readDoubleQuoted (c :: (gap.fold.reverse ++ read)) .empty (place.forward 4) rest
    | none => none
  | '\\' :: 'u' :: d₁ :: d₂ :: d₃ :: d₄ :: rest =>
    match escapedCode? [d₁, d₂, d₃, d₄] with
    | some c =>
      readDoubleQuoted (c :: (gap.fold.reverse ++ read)) .empty (place.forward 6) rest
    | none => none
  | '\\' :: 'U' :: d₁ :: d₂ :: d₃ :: d₄ :: d₅ :: d₆ :: d₇ :: d₈ :: rest =>
    match escapedCode? [d₁, d₂, d₃, d₄, d₅, d₆, d₇, d₈] with
    | some c =>
      readDoubleQuoted (c :: (gap.fold.reverse ++ read)) .empty (place.forward 10) rest
    | none => none
  | '\\' :: e :: rest =>
    if isBreak e then
      readDoubleQuoted (gap.fold.reverse ++ read) (.breaks none []) (place.newLine 2) rest
    else match escapedChar? e with
      | some c =>
        readDoubleQuoted (c :: (gap.fold.reverse ++ read)) .empty (place.forward 2) rest
      | none => none
  | c :: rest =>
    if isBreak c then
      readDoubleQuoted read (gap.addBreak (breakText c)) (place.newLine 1) rest
    else if isBlank c then
      readDoubleQuoted read (gap.addBlank c) (place.forward 1) rest
    else if atDocumentMark place.column (c :: rest) then none
    else if c == '"' then
      some ((gap.fold.reverse ++ read).reverse, ⟨rest, place.forward 1⟩)
    else
      readDoubleQuoted (c :: (gap.fold.reverse ++ read)) .empty (place.forward 1) rest

/-- Reads the single-quoted scalar whose opening quote is at the cursor. -/
def Cursor.singleQuoted? (c : Cursor) : Option (List Char × Cursor) :=
  let inner := c.skip 1
  readSingleQuoted [] .empty inner.place inner.rest

/-- Reads the double-quoted scalar whose opening quote is at the cursor. -/
def Cursor.doubleQuoted? (c : Cursor) : Option (List Char × Cursor) :=
  let inner := c.skip 1
  readDoubleQuoted [] .empty inner.place inner.rest

end Yaml
end CiPipelines

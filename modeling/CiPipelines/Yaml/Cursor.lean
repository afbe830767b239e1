import CiPipelines.Yaml.Character

/-!
# Places in a text

A cursor is the text that is still to be read together with the place where it starts.
Columns and lines count from zero; the index counts characters from the start of the text.
-/

namespace CiPipelines
namespace Yaml

/-- Where a character stands. -/
structure Place where
  index : Nat
  line : Nat
  column : Nat
  deriving DecidableEq, Repr

namespace Place

/-- The place of the first character. -/
def start : Place := ⟨0, 0, 0⟩

/-- The place `n` characters further on the same line. -/
def forward (p : Place) (n : Nat) : Place :=
  ⟨p.index + n, p.line, p.column + n⟩

/-- The place after a line break of `width` characters. -/
def newLine (p : Place) (width : Nat) : Place :=
  ⟨p.index + width, p.line + 1, 0⟩

end Place

/-- The text still to be read and the place of its first character. -/
structure Cursor where
  rest : List Char
  place : Place
  deriving DecidableEq, Repr

namespace Cursor

/-- Skips `n` characters of the current line. -/
def skip (c : Cursor) (n : Nat) : Cursor :=
  ⟨c.rest.drop n, c.place.forward n⟩

/-- Splits off the longest run of characters that satisfy `p`, none of them a line break. -/
def span (c : Cursor) (p : Char → Bool) : List Char × Cursor :=
  let run := c.rest.takeWhile fun x => p x && !isBreak x
  (run, c.skip run.length)

/-- Skips spaces and tabs. -/
def skipBlanks (c : Cursor) : Cursor :=
  (c.span isBlank).2

/-- Skips a comment, if one starts here, up to the end of the line. -/
def skipComment (c : Cursor) : Cursor :=
  match c.rest with
  | '#' :: _ => (c.span fun _ => true).2
  | _ => c

/-- Skips one line break, if it comes next. -/
def skipBreak (c : Cursor) : Cursor :=
  match c.rest with
  | '\r' :: '\n' :: rest => ⟨rest, c.place.newLine 2⟩
  | x :: rest => if isBreak x then ⟨rest, c.place.newLine 1⟩ else c
  | [] => c

end Cursor

/-- A line that starts with `---` or `...`, followed by white space or nothing, separates
documents. -/
def atDocumentMark (column : Nat) (text : List Char) : Bool :=
  column == 0 && match text with
    | '-' :: '-' :: '-' :: rest => startsBlank rest
    | '.' :: '.' :: '.' :: rest => startsBlank rest
    | _ => false

end Yaml
end CiPipelines

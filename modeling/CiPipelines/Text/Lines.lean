import CiPipelines.Text.Blank

/-!
# Lines and other pieces of a text

The words of a text stand between its white space.  Its lines stand between its line feeds: the
break that ends the last line opens no further line, and a carriage return right before a break
belongs to the break.
-/

namespace CiPipelines
namespace Text

/-- The maximal runs of characters other than white space. -/
def words (text : List Char) : List (List Char) :=
  (text.splitOnP isSpace).filter fun piece => !piece.isEmpty

/-- Removes one `c` from the end, if the text ends in it. -/
def dropLastChar (c : Char) (text : List Char) : List Char :=
  if text.getLast? = some c then text.dropLast else text

/-- The lines of a text, without their breaks. -/
def lines (text : List Char) : List (List Char) :=
  let pieces := text.splitOn '\n'
  let ended := pieces.dropLast.map (dropLastChar '\r')
  match pieces.getLast? with
  | none | some [] => ended
  | some last => ended ++ [last]

/-- True when `piece` stands somewhere in `text`. -/
def occursIn (piece : List Char) : List Char → Bool
  | [] => piece.isEmpty
  | c :: rest => piece.isPrefixOf (c :: rest) || occursIn piece rest

/-- A piece occurs exactly where something stands before it and something after it. -/
theorem occursIn_iff (piece text : List Char) :
    occursIn piece text = true ↔ piece <:+: text := by
  induction text with
  | nil => simp [occursIn]
  | cons c rest ih => simp [occursIn, ih, List.infix_cons_iff]

example : lines "a\r\nb\n\nc".toList = ["a", "b", "", "c"].map String.toList := by decide
example : lines "a\n".toList = ["a".toList] := by decide
example : lines [] = [] := by decide
example : words "  a  bc ".toList = ["a".toList, "bc".toList] := by decide
example : occursIn "bc".toList "abcd".toList = true := by decide

end Text
end CiPipelines

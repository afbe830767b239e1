/-!
# Blank text

Characters that count as white space are those with the Unicode property `White_Space`;
control characters are the two ranges of general category `Cc`.  A text is blank when it
holds white space only, and trimming removes white space at its two ends.
-/

namespace CiPipelines
namespace Text

/-- A character with the Unicode property `White_Space`. -/
def isSpace (c : Char) : Bool :=
  let n := c.toNat
  (0x09 ≤ n && n ≤ 0x0D) || n == 0x20 || n == 0x85 || n == 0xA0 || n == 0x1680
    || (0x2000 ≤ n && n ≤ 0x200A) || n == 0x2028 || n == 0x2029 || n == 0x202F
    || n == 0x205F || n == 0x3000

/-- A character of the Unicode category `Cc`. -/
def isControl (c : Char) : Bool :=
  let n := c.toNat
  n ≤ 0x1F || (0x7F ≤ n && n ≤ 0x9F)

/-- Removes characters from the end while they satisfy `p`.  The program is built on core Lean
alone; in Mathlib this is `List.rdropWhile`, whose laws apply. -/
def dropEndWhile (p : Char → Bool) (text : List Char) : List Char :=
  (text.reverse.dropWhile p).reverse

/-- Removes characters from both ends while they satisfy `p`. -/
def stripWhile (p : Char → Bool) (text : List Char) : List Char :=
  dropEndWhile p (text.dropWhile p)

/-- Removes the white space at both ends. -/
def trim (text : List Char) : List Char :=
  stripWhile isSpace text

/-- True when the text holds nothing but white space. -/
def isBlank (text : List Char) : Bool :=
  text.all isSpace

example : trim " a b\t".toList = "a b".toList := by decide

end Text
end CiPipelines

import CiPipelines.Text.Hex

/-!
# Quoted JSON strings

A quote, a backslash and the control characters below the space are escaped; all other characters
stand for themselves.
-/

namespace CiPipelines
namespace Json

/-- How a character is written inside a string. -/
def escape (c : Char) : List Char :=
  match c with
  | '"' => ['\\', '"']
  | '\\' => ['\\', '\\']
  | '\n' => ['\\', 'n']
  | '\r' => ['\\', 'r']
  | '\t' => ['\\', 't']
  | '\x08' => ['\\', 'b']
  | '\x0c' => ['\\', 'f']
  | c =>
    if c.toNat < 0x20 then
      '\\' :: 'u' :: Text.hexText 'a' 4 c.toNat
    else [c]

/-- The characters of a string, escaped. -/
def escapeAll (text : List Char) : List Char := text.flatMap escape

/-- The string in quotes. -/
def quote (s : String) : String := "\"" ++ String.ofList (escapeAll s.toList) ++ "\""

end Json
end CiPipelines

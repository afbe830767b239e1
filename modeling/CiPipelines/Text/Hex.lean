/-!
# Hexadecimal digits
-/

namespace CiPipelines
namespace Text

/-- The value of a hexadecimal digit. -/
def hexDigit? (c : Char) : Option Nat :=
  if c.isDigit then some (c.toNat - '0'.toNat)
  else if 'a' ≤ c && c ≤ 'f' then some (c.toNat - 'a'.toNat + 10)
  else if 'A' ≤ c && c ≤ 'F' then some (c.toNat - 'A'.toNat + 10)
  else none

/-- The number that a row of hexadecimal digits denotes. -/
def hexNumber? (digits : List Char) : Option Nat :=
  digits.foldlM (fun n c => (hexDigit? c).map fun d => 16 * n + d) 0

/-- The digit for a number below sixteen, with `a` in the given case for ten. -/
def hexChar (letter : Char) (n : Nat) : Char :=
  if n < 10 then Char.ofNat ('0'.toNat + n) else Char.ofNat (letter.toNat + (n - 10))

/-- The last `width` digits of a number. -/
def hexText (letter : Char) : Nat → Nat → List Char
  | 0, _ => []
  | width + 1, n => hexText letter width (n / 16) ++ [hexChar letter (n % 16)]

example : hexNumber? "1F600".toList = some 0x1F600 := by decide
example : hexText 'A' 5 0x1F600 = "1F600".toList := by decide

end Text
end CiPipelines

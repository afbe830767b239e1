import CiPipelines.Decimal.Shortest

/-!
# Numbers in YAML

An integer is written in decimal, or in base 16, 8 or 2 after `0x`, `0o` or `0b`; a decimal one
has no leading zero.  Other numbers have a point or an exponent, or are `.inf` or `.nan`.

Integers are printed in decimal.  A finite double is printed with its shortest digits: with a
point when the first digit stands for at most `10 ^ 15` and at least `10 ^ -5`, and with an
exponent otherwise.
-/

namespace CiPipelines
namespace Yaml

/-- A number that is no integer. -/
inductive Real where
  | finite (negative : Bool) (magnitude : Decimal.Binary64)
  | infinity (negative : Bool)
  | nan
  deriving DecidableEq, Repr

/-- The digits of base `radix` denote a number; there must be at least one. -/
def natural? (radix : Nat) (digits : List Char) : Option Nat :=
  if digits.isEmpty then none
  else digits.foldlM (fun n c =>
    let d :=
      if c.isDigit then c.toNat - '0'.toNat
      else if 'a' ≤ c && c ≤ 'z' then c.toNat - 'a'.toNat + 10
      else if 'A' ≤ c && c ≤ 'Z' then c.toNat - 'A'.toNat + 10
      else radix
    if d < radix then some (radix * n + d) else none) 0

/-- A sign, if there is one, and what follows. -/
def splitSign : List Char → Option Char × List Char
  | '+' :: rest => (some '+', rest)
  | '-' :: rest => (some '-', rest)
  | text => (none, text)

/-- Digits with a leading zero, which are text. -/
def isPaddedDigits (text : List Char) : Bool :=
  match (splitSign text).2 with
  | '0' :: c :: rest => (c :: rest).all Char.isDigit
  | _ => false

/-- The magnitude of an integer without its sign. -/
def magnitude? : List Char → Option Nat
  | '0' :: 'x' :: digits => natural? 16 digits
  | '0' :: 'o' :: digits => natural? 8 digits
  | '0' :: 'b' :: digits => natural? 2 digits
  | digits => natural? 10 digits

/-- The integer that a text denotes, of any size. -/
def integer? (text : List Char) : Option Int :=
  if isPaddedDigits text then none
  else match splitSign text with
    | (some '-', digits) => (magnitude? digits).map fun n => -(n : Int)
    | (_, digits) => (magnitude? digits).map fun n => (n : Int)

/-- What an integer is worth to a reader with words of 64 and 128 bits. -/
inductive IntegerSize where
  /-- It fits 64 bits. -/
  | word
  /-- It fits 128 bits only, which no reader takes. -/
  | doubleWord
  /-- It fits neither and is read as a real number. -/
  | larger
  deriving DecidableEq, Repr

/-- Whether an integer fits a word of so many bits, one of which is the sign of a negative one. -/
def fitsWord (bits : Nat) : Int → Bool
  | .ofNat n => n < Decimal.twoTo bits
  | .negSucc n => n < Decimal.twoTo (bits - 1)

/-- The size of an integer. -/
def IntegerSize.of (n : Int) : IntegerSize :=
  if fitsWord 64 n then .word
  else if fitsWord 128 n then .doubleWord
  else .larger

/-- Reads an exponent; without one it is zero. -/
def exponent? : List Char → Option Int
  | [] => some 0
  | e :: rest =>
    if e == 'e' || e == 'E' then
      match splitSign rest with
      | (some '-', digits) => (natural? 10 digits).map fun n => -(n : Int)
      | (_, digits) => (natural? 10 digits).map fun n => (n : Int)
    else none

/-- Reads digits, perhaps with a point and an exponent, as `digits * 10 ^ scale`. -/
def decimal? (text : List Char) : Option (Nat × Int) := do
  let whole := text.takeWhile Char.isDigit
  let afterWhole := text.drop whole.length
  let (fraction, rest) := match afterWhole with
    | '.' :: more => (more.takeWhile Char.isDigit, more.dropWhile Char.isDigit)
    | _ => ([], afterWhole)
  let digits ← natural? 10 (whole ++ fraction)
  let e ← exponent? rest
  return (digits, e - fraction.length)

/-- The real number that a text denotes; none for a finite number too large for a double. -/
def real? (text : List Char) : Option Real :=
  if [".inf", ".Inf", ".INF", "+.inf", "+.Inf", "+.INF"].any (·.toList == text) then
    some (.infinity false)
  else if ["-.inf", "-.Inf", "-.INF"].any (·.toList == text) then some (.infinity true)
  else if [".nan", ".NaN", ".NAN"].any (·.toList == text) then some .nan
  else
    let (sign, digits) := splitSign text
    do
      let (n, scale) ← decimal? digits
      let magnitude ← Decimal.Binary64.ofDecimal n scale
      return .finite (sign == some '-') magnitude

/-- Where digits switch between the positional and the exponent form. -/
structure RealLayout where
  /-- The greatest number of digits before the point. -/
  wholeDigits : Int
  /-- The greatest number of zeros between the point and the first digit. -/
  leadingZeros : Int

/-- Up to sixteen digits stand before the point, and at most four zeros after it. -/
def realLayout : RealLayout := ⟨16, 4⟩

/-- Writes `digits * 10 ^ scale`. -/
def layOut (layout : RealLayout) (digits : Nat) (scale : Int) : List Char :=
  let text := Nat.toDigits 10 digits
  let point : Int := text.length + scale
  if 0 ≤ scale && point ≤ layout.wholeDigits then
    text ++ List.replicate scale.toNat '0' ++ ['.', '0']
  else if 0 < point && point ≤ layout.wholeDigits then
    text.take point.toNat ++ '.' :: text.drop point.toNat
  else if -layout.leadingZeros ≤ point && point ≤ 0 then
    '0' :: '.' :: List.replicate (-point).toNat '0' ++ text
  else
    let mantissa := match text with
      | first :: second :: rest => first :: '.' :: second :: rest
      | _ => text
    mantissa ++ 'e' :: (toString (point - 1)).toList

/-- The text of a real number. -/
def Real.text : Real → List Char
  | .nan => ".nan".toList
  | .infinity negative => (if negative then "-.inf" else ".inf").toList
  | .finite negative x =>
    let (digits, scale) := if x.significand = 0 then (0, 0) else Decimal.shortest x
    (if negative then ['-'] else []) ++ layOut realLayout digits scale

/-- Two real numbers are the same if they are equal as numbers; not-a-number is the same as
itself. -/
def Real.same : Real → Real → Bool
  | .finite n x, .finite m y => x == y && (n == m || x.significand == 0)
  | x, y => x == y

example : ((real? "1e3".toList).map Real.text) = some "1000.0".toList := by decide +kernel
example : ((real? "1e16".toList).map Real.text) = some "1e16".toList := by decide +kernel
example : ((real? "0.1e-6".toList).map Real.text) = some "1e-7".toList := by decide +kernel
example : ((real? "1e-5".toList).map Real.text) = some "0.00001".toList := by decide +kernel
example : integer? "-0x1F".toList = some (-31) := by decide +kernel
example : integer? "007".toList = none := by decide +kernel

end Yaml
end CiPipelines

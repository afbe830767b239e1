import CiPipelines.Decimal.Power

/-!
# Double precision numbers

A finite double is `significand * 2 ^ exponent` with a significand below `2 ^ 53` and an
exponent of at least `-1074`.  `ofDecimal` rounds `digits * 10 ^ scale` to the nearest
double, a tie going to the even significand, and gives nothing when the magnitude is beyond
the largest finite double.  All arithmetic is exact, on `Nat`.
-/

namespace CiPipelines
namespace Decimal

/-- The magnitude of a finite double: `significand * 2 ^ exponent`. -/
structure Binary64 where
  significand : Nat
  exponent : Int
  deriving DecidableEq, Repr

/-- `num / den` rounded to the nearest natural number, a tie going to the even one. -/
def roundHalfEven (num den : Nat) : Nat :=
  let low := num / den
  let twice := 2 * (num % den)
  if twice < den then low
  else if den < twice then low + 1
  else low + low % 2

namespace Binary64

/-- Zero. -/
def zero : Binary64 := ⟨0, -1074⟩

/-- The double nearest to `num / den`, for positive `num` and `den`. -/
def ofRatio (num den : Nat) : Option Binary64 :=
  let estimate : Int := (num.log2 : Int) - (den.log2 : Int) - 53
  let scaled (q : Int) : Nat × Nat :=
    if 0 ≤ q then (num, den * twoTo q.toNat) else (num * twoTo (-q).toNat, den)
  let q₀ := max estimate (-1074)
  let fine := scaled q₀
  let q := if fine.1 / fine.2 < twoTo 53 then q₀ else q₀ + 1
  let (a, b) := scaled q
  let m := roundHalfEven a b
  let (m, q) := if m = twoTo 53 then (twoTo 52, q + 1) else (m, q)
  if 971 < q then none else some ⟨m, q⟩

/-- The double nearest to `digits * 10 ^ scale`; nothing when it is infinite.  A number with
more than 310 digits before the point is too large, and one that starts below the 400th
place after it is zero. -/
def ofDecimal (digits : Nat) (scale : Int) : Option Binary64 :=
  if digits = 0 then some zero
  else
    let magnitude : Int := (Nat.toDigits 10 digits).length + scale
    if 310 < magnitude then none
    else if magnitude < -400 then some zero
    else if 0 ≤ scale then ofRatio (digits * tenTo scale.toNat) 1
    else ofRatio digits (tenTo (-scale).toNat)

example : ofDecimal 1 0 = some ⟨twoTo 52, -52⟩ := by decide +kernel
example : ofDecimal 5 (-324) = some ⟨1, -1074⟩ := by decide +kernel
example : ofDecimal 18 307 = none := by decide +kernel

end Binary64
end Decimal
end CiPipelines

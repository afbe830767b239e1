import CiPipelines.Decimal.Binary64

/-!
# The shortest decimal of a double

Every decimal that is nearer to a double than to its neighbours reads back as that double.
`shortest` gives the decimal with the fewest digits among them, the nearest to the double if
there are several, and the one with an even last digit if two are equally near.

On each decimal grid only the two neighbours of the double need a test: when any point of a
grid reads back, one of these two does.  Grids are tried from coarse to fine.
-/

namespace CiPipelines
namespace Decimal

/-- The points that read back as a double, over a common denominator: those between `low` and
`high`, the ends included when `closed`; the double itself is `value`. -/
structure Interval where
  low : Nat
  value : Nat
  high : Nat
  den : Nat
  closed : Bool

/-- The points that read back as `x`.  Half a unit on either side, but a quarter below a power
of two, where the doubles lie twice as close. -/
def Interval.of (x : Binary64) : Interval :=
  -- In quarters of a unit, so that both ends are whole numbers.
  let m := 4 * x.significand
  let below := if x.significand = twoTo 52 ∧ -1074 < x.exponent then 1 else 2
  let q := x.exponent - 2
  let up := twoTo q.toNat
  ⟨(m - below) * up, m * up, (m + 2) * up, twoTo (-q).toNat, x.significand % 2 == 0⟩

/-- The same interval in units of `10 ^ k`. -/
def Interval.scale (i : Interval) (k : Int) : Interval :=
  let up := tenTo (-k).toNat
  ⟨i.low * up, i.value * up, i.high * up, i.den * tenTo k.toNat, i.closed⟩

/-- Whether the whole number `n` lies in the interval. -/
def Interval.holds (i : Interval) (n : Nat) : Bool :=
  let point := n * i.den
  if i.closed then i.low ≤ point && point ≤ i.high else i.low < point && point < i.high

/-- The whole number of the interval that is nearest to its value, of two the even one. -/
def Interval.nearest? (i : Interval) : Option Nat :=
  let floor := i.value / i.den
  let low := decide (0 < floor) && i.holds floor
  let high := i.holds (floor + 1)
  let twice := 2 * (i.value % i.den)
  if low && high then
    if twice < i.den then some floor
    else if i.den < twice then some (floor + 1)
    else some (floor + floor % 2)
  else if low then some floor
  else if high then some (floor + 1)
  else none

/-- Tries the grids `10 ^ k`, `10 ^ (k - 1)`, … -/
def firstHit (i : Interval) : Nat → Int → Option (Nat × Int)
  | 0, _ => none
  | tries + 1, k =>
    match (i.scale k).nearest? with
    | some n => some (n, k)
    | none => firstHit i tries (k - 1)

/-- The shortest decimal `digits * 10 ^ scale` that reads back as `x`, for `x` other than zero. -/
def shortest (x : Binary64) : Nat × Int :=
  let bits : Int := (x.significand.log2 : Int) + x.exponent
  -- The logarithm of two to base ten is about 0.30103; the first grid is about as coarse as `x`.
  (firstHit (Interval.of x) 24 (bits * 30103 / 100000 + 1)).getD (0, 0)

example : (Binary64.ofDecimal 3 (-1)).map shortest = some (3, -1) := by decide +kernel
example : (Binary64.ofDecimal 30000000000000004 (-17)).map shortest
    = some (30000000000000004, -17) := by decide +kernel
example : shortest ⟨1, -1074⟩ = (5, -324) := by decide +kernel

end Decimal
end CiPipelines

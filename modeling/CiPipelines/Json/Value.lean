import CiPipelines.Decimal.Binary64

/-!
# JSON values

A string that holds half of a surrogate pair has no text, and a number is kept as the decimal
that is written.
-/

namespace CiPipelines

/-- A JSON number `digits * 10 ^ scale`. -/
structure Json.Number where
  negative : Bool
  digits : Nat
  scale : Int
  /-- Whether only digits are written, without sign, point and exponent. -/
  isNatural : Bool
  deriving DecidableEq, Repr

/-- A JSON value. -/
inductive Json where
  | null
  | bool (b : Bool)
  | number (n : Json.Number)
  | string (text : Option String)
  | array (items : List Json)
  | object (entries : List (Option String × Json))

namespace Json

/-- The natural number that is written, if it fits 64 bits. -/
def Number.natural? (n : Number) : Option Nat :=
  if n.isNatural && n.digits < Decimal.twoTo 64 then some n.digits else none

/-- Whether the number is no larger than the doubles are. -/
def Number.isFinite (n : Number) : Bool :=
  (Decimal.Binary64.ofDecimal n.digits n.scale).isSome

mutual

/-- How deep arrays and objects are nested. -/
def depth : Json → Nat
  | .array items => depthOfItems items + 1
  | .object entries => depthOfEntries entries + 1
  | _ => 0

/-- The depth of the deepest item. -/
def depthOfItems : List Json → Nat
  | [] => 0
  | v :: rest => max v.depth (depthOfItems rest)

/-- The depth of the deepest value. -/
def depthOfEntries : List (Option String × Json) → Nat
  | [] => 0
  | (_, v) :: rest => max v.depth (depthOfEntries rest)

end

end Json
end CiPipelines

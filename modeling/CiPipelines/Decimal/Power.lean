/-!
# Powers of two and ten

Doubles are made of powers of two and decimals of powers of ten.  Both are plain natural numbers
and positive.
-/

namespace CiPipelines
namespace Decimal

/-- The power of two with the given exponent. -/
def twoTo (exponent : Nat) : Nat := Nat.pow 2 exponent

/-- The power of ten with the given exponent. -/
def tenTo (exponent : Nat) : Nat := Nat.pow 10 exponent

theorem twoTo_pos (n : Nat) : 0 < twoTo n := Nat.two_pow_pos n

theorem tenTo_pos (n : Nat) : 0 < tenTo n := Nat.pow_pos (by decide)

end Decimal
end CiPipelines

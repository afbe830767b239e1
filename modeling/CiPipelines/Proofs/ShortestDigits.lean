import CiPipelines.Decimal.Shortest
import Mathlib.Algebra.Order.Field.Power
import Mathlib.Data.Rat.Cast.Order
import Mathlib.Tactic.Linarith
import Mathlib.Tactic.Positivity
import Mathlib.Tactic.Ring

/-!
# The last of the shortest digits

The shortest decimal of a double does not end in a zero: without the zero it would lie on the next
coarser grid, which was tried before.  Only the first grid has no grid before it, and that is so
coarse that no point of it with two digits is near the double.
-/

namespace CiPipelines
namespace Decimal

/-! ## Grids -/

/-- The value of an interval lies in it, below its upper end. -/
structure Interval.Encloses (i : Interval) : Prop where
  low_le : i.low ≤ i.value
  value_lt : i.value < i.high
  den_pos : 0 < i.den

/-- A rational number that reads back. -/
def Interval.Contains (i : Interval) (r : ℚ) : Prop :=
  if i.closed then i.low ≤ r * i.den ∧ r * i.den ≤ i.high
  else i.low < r * i.den ∧ r * i.den < i.high

theorem encloses_of (x : Binary64) : (Interval.of x).Encloses := by
  refine ⟨?_, ?_, twoTo_pos _⟩
  · exact Nat.mul_le_mul_right _ (Nat.sub_le _ _)
  · exact Nat.mul_lt_mul_of_pos_right (Nat.lt_add_of_pos_right Nat.two_pos) (twoTo_pos _)

theorem Interval.Encloses.scale {i : Interval} (h : i.Encloses) (k : Int) :
    (i.scale k).Encloses where
  low_le := Nat.mul_le_mul_right _ h.low_le
  value_lt := Nat.mul_lt_mul_of_pos_right h.value_lt (tenTo_pos _)
  den_pos := Nat.mul_pos h.den_pos (tenTo_pos _)

/-- An integer power is a quotient of natural ones. -/
theorem zpow_eq_div (b : ℚ) (q : ℤ) : b ^ q = b ^ q.toNat / b ^ (-q).toNat := by
  rcases Int.le_total 0 q with h | h
  · obtain ⟨n, rfl⟩ := Int.eq_ofNat_of_zero_le h
    simp
  · obtain ⟨n, hn⟩ := Int.eq_ofNat_of_zero_le (Int.neg_nonneg_of_nonpos h)
    obtain rfl : q = -(n : ℤ) := by omega
    simp

theorem Interval.holds_iff (i : Interval) (n : Nat) : i.holds n = true ↔
    if i.closed then i.low ≤ n * i.den ∧ n * i.den ≤ i.high
    else i.low < n * i.den ∧ n * i.den < i.high := by
  unfold holds
  split <;> simp

/-- The whole numbers of a grid in an interval are the points of the grid in it. -/
theorem Interval.holds_scale_iff (i : Interval) (k : Int) (n : Nat) :
    (i.scale k).holds n = true ↔ i.Contains (n * 10 ^ k) := by
  have hup : (0 : ℚ) < 10 ^ (-k).toNat := by positivity
  have hpoint : (n : ℚ) * 10 ^ k * i.den = n * (i.den * 10 ^ k.toNat) / 10 ^ (-k).toNat := by
    rw [zpow_eq_div]
    ring
  rw [holds_iff, scale, Contains, hpoint, le_div_iff₀ hup, div_le_iff₀ hup, lt_div_iff₀ hup,
    div_lt_iff₀ hup]
  simp only [tenTo, Nat.pow_eq]
  norm_cast

/-! ## The nearest point of a grid -/

section

variable {i : Interval} {n : Nat}

theorem holds_of_nearest? (h : i.nearest? = some n) : 0 < n ∧ i.holds n = true := by
  simp only [Interval.nearest?] at h
  generalize i.value / i.den = floor at h
  grind

/-- If any point of the grid reads back, one of the two neighbours of the value does. -/
theorem nearest?_ne_none (hi : i.Encloses) (hpos : 0 < n) (hn : i.holds n = true) :
    i.nearest? ≠ none := by
  obtain ⟨hlow, hhigh, hden⟩ := hi
  have hfloor : i.value / i.den * i.den ≤ i.value := Nat.div_mul_le_self _ _
  have hnext : i.value < (i.value / i.den + 1) * i.den :=
    Nat.lt_mul_of_div_lt (Nat.lt_succ_self _) hden
  simp only [Interval.nearest?]
  generalize i.value / i.den = floor at hfloor hnext ⊢
  -- The neighbour on the same side of the value as the point lies between them.
  have hsome : 0 < floor ∧ i.holds floor = true ∨ i.holds (floor + 1) = true := by
    rw [Interval.holds_iff] at hn
    rw [Interval.holds_iff, Interval.holds_iff]
    rcases Nat.lt_or_ge floor n with hlt | hle
    · have hpoint : (floor + 1) * i.den ≤ n * i.den := Nat.mul_le_mul_right _ hlt
      right
      split at hn
      · rename_i hclosed
        rw [if_pos hclosed]
        omega
      · rename_i hopen
        rw [if_neg hopen]
        omega
    · have hpoint : n * i.den ≤ floor * i.den := Nat.mul_le_mul_right _ hle
      left
      refine ⟨by omega, ?_⟩
      split at hn
      · rename_i hclosed
        rw [if_pos hclosed]
        omega
      · rename_i hopen
        rw [if_neg hopen]
        omega
  grind

end

/-- A grid on which a point is found is the first one, or no point of the next coarser one reads
back. -/
theorem firstHit_eq_some {i : Interval} {tries n : Nat} {k e : Int}
    (h : firstHit i tries k = some (n, e)) :
    (i.scale e).nearest? = some n ∧ (e = k ∨ (i.scale (e + 1)).nearest? = none) := by
  induction tries generalizing k with
  | zero => cases h
  | succ tries ih =>
    rw [firstHit] at h
    split at h
    · rename_i m hm
      obtain ⟨rfl, rfl⟩ := Prod.mk.inj (Option.some.inj h)
      exact ⟨hm, .inl rfl⟩
    · rename_i hnone
      obtain ⟨hn, rfl | hcoarser⟩ := ih h
      · exact ⟨hn, .inr (by rwa [Int.sub_add_cancel])⟩
      · exact ⟨hn, .inr hcoarser⟩

/-! ## The first grid -/

/-- Powers of two below powers of ten. -/
theorem two_pow_lt_ten_pow (b : Nat) : 2 ^ b < 10 ^ (b * 30103 / 100000 + 1) := by
  have hbase : 2 ^ 100000 ≤ 10 ^ 30103 := by decide +kernel
  refine lt_of_pow_lt_pow_left₀ 100000 (Nat.zero_le _) ?_
  calc (2 ^ b) ^ 100000 = (2 ^ 100000) ^ b := by rw [← pow_mul, ← pow_mul, Nat.mul_comm]
    _ ≤ (10 ^ 30103) ^ b := Nat.pow_le_pow_left hbase b
    _ = 10 ^ (30103 * b) := (pow_mul _ _ _).symm
    _ < 10 ^ ((b * 30103 / 100000 + 1) * 100000) := Nat.pow_lt_pow_right (by omega) (by omega)
    _ = (10 ^ (b * 30103 / 100000 + 1)) ^ 100000 := pow_mul _ _ _

theorem ten_pow_lt_two_pow : ∀ a < 1075, 10 ^ ((a * 30103 + 99999) / 100000) < 50 * 2 ^ a := by
  decide +kernel

/-- The power of ten above the first grid is at least as large as any double with these bits. -/
theorem two_zpow_le_ten_zpow {b : ℤ} (hb : -1074 ≤ b) :
    (2 : ℚ) ^ (b + 1) ≤ 10 ^ (b * 30103 / 100000 + 1 + 1) := by
  rcases Int.le_total 0 b with h | h
  · obtain ⟨n, rfl⟩ := Int.eq_ofNat_of_zero_le h
    have hexponent : (n : ℤ) * 30103 / 100000 + 1 + 1 = (n * 30103 / 100000 + 1 + 1 : ℕ) := by omega
    have hexponent' : (n : ℤ) + 1 = (n + 1 : ℕ) := by omega
    have hlt := two_pow_lt_ten_pow n
    rw [hexponent, hexponent', zpow_natCast, zpow_natCast]
    have hle : 2 ^ (n + 1) ≤ 10 ^ (n * 30103 / 100000 + 1 + 1) := by
      rw [pow_succ, pow_succ 10]
      omega
    exact_mod_cast hle
  · obtain ⟨n, hn⟩ := Int.eq_ofNat_of_zero_le (Int.neg_nonneg_of_nonpos h)
    obtain rfl : b = -(n : ℤ) := by omega
    have hlt := ten_pow_lt_two_pow n (by omega)
    have hexponent : -(n : ℤ) * 30103 / 100000 = -((n * 30103 + 99999) / 100000 : ℕ) := by omega
    rw [hexponent, zpow_add₀ two_ne_zero, zpow_add₀ (by norm_num), zpow_add₀ (by norm_num),
      zpow_neg, zpow_neg, zpow_natCast, zpow_natCast, zpow_one, zpow_one]
    have hlt' : (10 : ℚ) ^ ((n * 30103 + 99999) / 100000) < 50 * 2 ^ n := by exact_mod_cast hlt
    have htwo : (0 : ℚ) < 2 ^ n := by positivity
    have hten : (0 : ℚ) < 10 ^ ((n * 30103 + 99999) / 100000) := by positivity
    rw [inv_mul_eq_div, mul_assoc, inv_mul_eq_div, div_le_div_iff₀ htwo hten]
    linarith

/-- What reads back as a double is less than the next power of two. -/
theorem lt_two_zpow_of_contains {x : Binary64} {r : ℚ} (h : (Interval.of x).Contains r) :
    r < 2 ^ ((x.significand.log2 : ℤ) + x.exponent + 1) := by
  have hhigh : r * (Interval.of x).den ≤ (Interval.of x).high := by
    unfold Interval.Contains at h
    split at h
    · exact h.2
    · exact h.2.le
  have hden : (0 : ℚ) < 2 ^ (-(x.exponent - 2)).toNat := by positivity
  have hpower : (0 : ℚ) < 2 ^ (x.exponent - 2) := by positivity
  have hlog : x.significand < 2 ^ (x.significand.log2 + 1) := Nat.lt_log2_self
  have hupper : ((4 * x.significand + 2 : ℕ) : ℚ) < 2 ^ (x.significand.log2 + 3) := by
    have hlt : 4 * x.significand + 2 < 2 ^ (x.significand.log2 + 3) := by
      rw [Nat.pow_succ] at hlog
      rw [Nat.pow_add]
      omega
    exact_mod_cast hlt
  have hle : r ≤ ((4 * x.significand + 2 : ℕ) : ℚ) * 2 ^ (x.exponent - 2) := by
    rw [zpow_eq_div, ← mul_div_assoc, le_div_iff₀ hden]
    simpa [Interval.of, twoTo] using hhigh
  calc r ≤ ((4 * x.significand + 2 : ℕ) : ℚ) * 2 ^ (x.exponent - 2) := hle
    _ < 2 ^ (x.significand.log2 + 3) * 2 ^ (x.exponent - 2) := mul_lt_mul_of_pos_right hupper hpower
    _ = 2 ^ ((x.significand.log2 : ℤ) + x.exponent + 1) := by
      rw [← zpow_natCast, ← zpow_add₀ two_ne_zero]
      congr 1
      omega

/-- No point of the first grid with two digits reads back. -/
theorem lt_ten_of_holds {x : Binary64} (hexponent : -1074 ≤ x.exponent) {n : Nat}
    (h : ((Interval.of x).scale
      (((x.significand.log2 : Int) + x.exponent) * 30103 / 100000 + 1)).holds n = true) :
    n < 10 := by
  have hle := two_zpow_le_ten_zpow (show -1074 ≤ (x.significand.log2 : ℤ) + x.exponent by omega)
  generalize ((x.significand.log2 : ℤ) + x.exponent) * 30103 / 100000 + 1 = k at h hle
  have hlt := lt_two_zpow_of_contains ((Interval.holds_scale_iff _ _ _).1 h)
  have hten : 10 ^ k * (n : ℚ) < 10 ^ k * 10 := by
    rw [mul_comm, ← zpow_add_one₀ (by norm_num)]
    exact hlt.trans_le hle
  exact_mod_cast lt_of_mul_lt_mul_left hten (by positivity)

/-! ## The last digit -/

/-- A double that is read has no lower exponent than zero. -/
theorem le_exponent_of_ofRatio {num den : Nat} {x : Binary64}
    (h : Binary64.ofRatio num den = some x) : -1074 ≤ x.exponent := by
  simp only [Binary64.ofRatio] at h
  generalize hfirst : max _ (-1074 : Int) = first at h
  generalize hq : (if _ / _ < twoTo 53 then first else first + 1) = q at h
  generalize roundHalfEven _ _ = m at h
  generalize hrounded : (if m = twoTo 53 then (twoTo 52, q + 1) else (m, q)) = rounded at h
  have hle : -1074 ≤ first := hfirst ▸ le_max_right _ _
  have hle' : first ≤ q := by
    rw [← hq]
    split <;> omega
  have hle'' : q ≤ rounded.2 := by
    rw [← hrounded]
    split <;> dsimp only <;> omega
  split at h
  · cases h
  · obtain rfl := Option.some.inj h
    exact hle.trans (hle'.trans hle'')

theorem le_exponent_of_ofDecimal {digits : Nat} {scale : Int} {x : Binary64}
    (h : Binary64.ofDecimal digits scale = some x) : -1074 ≤ x.exponent := by
  simp only [Binary64.ofDecimal] at h
  split at h
  · exact Option.some.inj h ▸ le_refl _
  split at h
  · cases h
  split at h
  · exact Option.some.inj h ▸ le_refl _
  split at h
  · exact le_exponent_of_ofRatio h
  · exact le_exponent_of_ofRatio h

/-- The shortest decimal does not end in a zero; there is none if it is zero itself. -/
theorem shortest_mod_ten_ne_zero {x : Binary64} (hexponent : -1074 ≤ x.exponent) :
    shortest x = (0, 0) ∨ (shortest x).1 % 10 ≠ 0 := by
  unfold shortest
  dsimp only
  generalize hfirst : firstHit _ _ _ = hit
  cases hit with
  | none => exact .inl rfl
  | some read =>
    obtain ⟨n, e⟩ := read
    obtain ⟨hnearest, hcoarser⟩ := firstHit_eq_some hfirst
    obtain ⟨hpos, hholds⟩ := holds_of_nearest? hnearest
    refine .inr fun hzero => ?_
    obtain ⟨m, hm⟩ : ∃ m, n = 10 * m := Nat.dvd_of_mod_eq_zero hzero
    subst hm
    -- Without its last zero the decimal is a point of the next coarser grid.
    have hshort : ((Interval.of x).scale (e + 1)).holds m = true := by
      rw [Interval.holds_scale_iff] at hholds ⊢
      rw [zpow_add₀ (by norm_num), zpow_one]
      push_cast at hholds
      convert hholds using 1
      ring
    rcases hcoarser with rfl | hnone
    · have hlt := lt_ten_of_holds hexponent hholds
      omega
    · exact nearest?_ne_none ((encloses_of x).scale _) (by omega) hshort hnone

end Decimal
end CiPipelines

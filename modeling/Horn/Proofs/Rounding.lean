import Horn.Number.Shortest
import Mathlib.Algebra.Order.Field.Power
import Mathlib.Data.Rat.Cast.Order
import Mathlib.Tactic.FieldSimp
import Mathlib.Tactic.Linarith
import Mathlib.Tactic.NormNum
import Mathlib.Tactic.Positivity
import Mathlib.Tactic.Ring

/-!
Rounding to the nearest double.  Every rational in the rounding interval of a double rounds to it: the
unit that rounding chooses is the unit of the double, or half of it just below a power of two, and in
that unit the double is the nearest integer, or the even one of the two nearest.
-/

namespace Horn
namespace Double

/-- A number that is neither infinite nor undefined. -/
def IsFinite (x : Double) : Prop := x.magnitude < infinityMagnitude

/-! ## Rounding to an integer -/

/-- A quotient within a half of an integer is rounded to it, at a distance of a half if it is even. -/
theorem roundHalfEven_eq {num den m : Nat} (hden : 0 < den)
    (hlow : 2 * (m * den) ≤ 2 * num + den) (hhigh : 2 * num ≤ 2 * (m * den) + den)
    (htie : 2 * num + den = 2 * (m * den) ∨ 2 * num = 2 * (m * den) + den → m % 2 = 0) :
    roundHalfEven num den = m := by
  have hdiv : num / den * den + num % den = num := by
    rw [Nat.mul_comm]
    exact Nat.div_add_mod num den
  have hmod : num % den < den := Nat.mod_lt num hden
  have hquotient : num / den = m ∨ num / den + 1 = m := by
    rcases Nat.lt_trichotomy (num / den) m with hlt | heq | hgt
    · by_contra hne
      have hle : num / den + 2 ≤ m := by omega
      have hmul := Nat.mul_le_mul_right den hle
      rw [Nat.add_mul] at hmul
      omega
    · exact .inl heq
    · have hmul := Nat.mul_le_mul_right den hgt
      rw [Nat.succ_mul] at hmul
      omega
  unfold roundHalfEven
  dsimp only
  rcases hquotient with heq | heq
  · rw [heq] at hdiv ⊢
    split_ifs <;> omega
  · rw [← heq, Nat.add_mul] at hlow hhigh htie
    rw [← heq]
    split_ifs <;> omega

/-! ## The unit -/

theorem scaled_den_pos (num : Nat) {den : Nat} (hden : 0 < den) (u : Int) : 0 < (scaled num den u).2 := by
  unfold scaled
  split
  · exact hden
  · simp only [Nat.shiftLeft_eq]
    exact Nat.mul_pos hden (Nat.two_pow_pos _)

theorem scaled_eq {num den : Nat} (hden : 0 < den) (u : Int) :
    ((scaled num den u).1 : ℚ) / (scaled num den u).2 = num / den / 2 ^ u := by
  have hden' : (den : ℚ) ≠ 0 := by positivity
  unfold scaled
  simp only [Nat.shiftLeft_eq]
  split
  next h =>
    have hpow : ((2 : ℚ) ^ (-u).toNat) = (2 ^ u)⁻¹ := by
      rw [← zpow_natCast, Int.toNat_of_nonneg (by omega), zpow_neg]
    push_cast
    rw [hpow]
    field_simp
  next h =>
    have hpow : ((2 : ℚ) ^ u.toNat) = 2 ^ u := by
      rw [← zpow_natCast, Int.toNat_of_nonneg (by omega)]
    push_cast
    rw [hpow]
    field_simp

/-- The logarithms of numerator and denominator say between which powers of two the quotient is. -/
theorem between_powers {num den : Nat} (hnum : 0 < num) (hden : 0 < den) :
    (2 : ℚ) ^ ((num.log2 : Int) - den.log2 - 1) < num / den ∧
      (num / den : ℚ) < 2 ^ ((num.log2 : Int) - den.log2 + 1) := by
  have hden' : (0 : ℚ) < den := by exact_mod_cast hden
  have hn1 : (2 : ℚ) ^ num.log2 ≤ num := by exact_mod_cast Nat.log2_self_le hnum.ne'
  have hn2 : (num : ℚ) < 2 ^ (num.log2 + 1) := by exact_mod_cast Nat.lt_log2_self
  have hd1 : (2 : ℚ) ^ den.log2 ≤ den := by exact_mod_cast Nat.log2_self_le hden.ne'
  have hd2 : (den : ℚ) < 2 ^ (den.log2 + 1) := by exact_mod_cast Nat.lt_log2_self
  constructor
  · rw [lt_div_iff₀ hden']
    calc (2 : ℚ) ^ ((num.log2 : Int) - den.log2 - 1) * den
        < 2 ^ ((num.log2 : Int) - den.log2 - 1) * 2 ^ (den.log2 + 1) := by gcongr
      _ = 2 ^ num.log2 := by
        rw [← zpow_natCast, ← zpow_natCast, ← zpow_add₀ two_ne_zero]
        congr 1
        push_cast
        ring
      _ ≤ num := hn1
  · rw [div_lt_iff₀ hden']
    calc (num : ℚ) < 2 ^ (num.log2 + 1) := hn2
      _ = 2 ^ ((num.log2 : Int) - den.log2 + 1) * 2 ^ den.log2 := by
        rw [← zpow_natCast, ← zpow_natCast, ← zpow_add₀ two_ne_zero]
        congr 1
        push_cast
        ring
      _ ≤ 2 ^ ((num.log2 : Int) - den.log2 + 1) * den := by gcongr

theorem two_pow_mul (k : Nat) (u : Int) : (2 ^ k * 2 ^ u : ℚ) = 2 ^ (k + u) := by
  rw [zpow_add₀ two_ne_zero, zpow_natCast]

/-- The quotient in a unit has a number of bits when it is below a power of two. -/
theorem scaled_lt_iff (num : Nat) {den : Nat} (hden : 0 < den) (u : Int) (k : Nat) :
    (scaled num den u).1 / (scaled num den u).2 < 2 ^ k ↔ (num / den : ℚ) < 2 ^ k * 2 ^ u := by
  have hpos := scaled_den_pos num hden u
  have hpos' : (0 : ℚ) < (scaled num den u).2 := by exact_mod_cast hpos
  rw [Nat.div_lt_iff_lt_mul hpos, ← div_lt_iff₀ (by positivity), ← scaled_eq hden,
    div_lt_iff₀ hpos']
  norm_cast

/-- The quotient is rounded in a unit in which it has at most 53 bits, and not less unless the unit
is the least one. -/
theorem exists_unit {num den : Nat} (hnum : 0 < num) (hden : 0 < den) :
    ∃ u : Int, -1074 ≤ u ∧ (num / den : ℚ) < 2 ^ 53 * 2 ^ u ∧
      (u ≠ -1074 → (2 ^ 52 * 2 ^ u : ℚ) ≤ num / den) ∧
      nearest num den = ⟨UInt64.ofNat (min (roundHalfEven (scaled num den u).1 (scaled num den u).2 +
        (u + 1074).toNat * 2 ^ 52) infinityMagnitude)⟩ := by
  obtain ⟨hlow, hhigh⟩ := between_powers hnum hden
  unfold nearest
  simp only [Nat.shiftLeft_eq, Nat.one_mul]
  generalize (num.log2 : Int) - den.log2 = E at hlow hhigh ⊢
  have htrial := scaled_lt_iff num hden (max (E - 53) (-1074)) 53
  refine ⟨_, ?_, ?_, ?_, rfl⟩
  · split <;> omega
  · split
    next h => exact htrial.1 h
    next h =>
      refine hhigh.trans_le ?_
      rw [two_pow_mul]
      exact zpow_le_zpow_right₀ one_le_two (by push_cast; omega)
  · split
    next h =>
      intro hne
      rw [two_pow_mul]
      exact (zpow_le_zpow_right₀ one_le_two (by push_cast; omega)).trans hlow.le
    next h =>
      intro _
      have hge := not_lt.1 (mt htrial.2 h)
      rw [two_pow_mul] at hge ⊢
      exact (zpow_le_zpow_right₀ one_le_two (by push_cast; omega)).trans hge

/-! ## The numbers that round to a double -/

/-- How far the interval goes below, in quarters of the unit: a power of two has a nearer neighbour
there. -/
def below (x : Double) : Nat := if x.significand = 2 ^ 52 ∧ -1074 < x.exponent then 1 else 2

/-- The number lies in the rounding interval; the ends belong to it when the significand is even. -/
structure Rounds (x : Double) (r : ℚ) : Prop where
  low : (x.significand - x.below / 4 : ℚ) * 2 ^ x.exponent ≤ r
  high : r ≤ (x.significand + 1 / 2 : ℚ) * 2 ^ x.exponent
  closed : r = (x.significand - x.below / 4 : ℚ) * 2 ^ x.exponent ∨
    r = (x.significand + 1 / 2 : ℚ) * 2 ^ x.exponent → x.significand % 2 = 0

theorem significand_eq (x : Double) : x.significand =
    if x.magnitude < 2 ^ 52 then x.magnitude else x.magnitude % 2 ^ 52 + 2 ^ 52 := rfl

theorem exponent_eq (x : Double) : x.exponent =
    if x.magnitude < 2 ^ 52 then (-1074 : Int) else (x.magnitude / 2 ^ 52 : Nat) - 1075 := by
  rw [← Nat.shiftRight_eq_div_pow]
  rfl

theorem significand_lt (x : Double) : x.significand < 2 ^ 53 := by
  rw [significand_eq]
  split <;> omega

theorem le_exponent (x : Double) : -1074 ≤ x.exponent := by
  rw [exponent_eq]
  split <;> omega

theorem le_significand {x : Double} (h : x.exponent ≠ -1074) : 2 ^ 52 ≤ x.significand := by
  rw [exponent_eq] at h
  rw [significand_eq]
  split at h
  · exact absurd rfl h
  next hle =>
    rw [if_neg hle]
    omega

/-- The word of a double from its significand and its exponent. -/
theorem magnitude_eq (x : Double) :
    x.magnitude = x.significand + (x.exponent + 1074).toNat * 2 ^ 52 := by
  rw [significand_eq, exponent_eq]
  split <;> omega

theorem significand_pos {x : Double} (h : 0 < x.magnitude) : 0 < x.significand := by
  rw [significand_eq]
  split <;> omega

theorem exponent_le {x : Double} (h : x.IsFinite) : x.exponent ≤ 971 := by
  have hlimit : infinityMagnitude = 2047 * 2 ^ 52 := rfl
  rw [IsFinite, hlimit] at h
  rw [exponent_eq]
  split <;> omega

theorem roundHalfEven_scaled {num den : Nat} (hden : 0 < den) {u : Int} {m : Nat}
    (hlow : (m - 1 / 2 : ℚ) * 2 ^ u ≤ num / den) (hhigh : (num / den : ℚ) ≤ (m + 1 / 2) * 2 ^ u)
    (htie : (num / den : ℚ) = (m - 1 / 2) * 2 ^ u ∨ (num / den : ℚ) = (m + 1 / 2) * 2 ^ u →
      m % 2 = 0) :
    roundHalfEven (scaled num den u).1 (scaled num den u).2 = m := by
  have hpos := scaled_den_pos num hden u
  have hpos' : (0 : ℚ) < (scaled num den u).2 := by exact_mod_cast hpos
  have hpow : (0 : ℚ) < 2 ^ u := by positivity
  have hvalue : (num / den : ℚ) = (scaled num den u).1 / (scaled num den u).2 * 2 ^ u := by
    rw [scaled_eq hden]
    field_simp
  rw [hvalue] at hlow hhigh htie
  rw [mul_le_mul_iff_left₀ hpow] at hlow hhigh
  rw [mul_left_inj' hpow.ne', mul_left_inj' hpow.ne'] at htie
  generalize (scaled num den u).1 = n at *
  generalize (scaled num den u).2 = d at *
  rw [le_div_iff₀ hpos'] at hlow
  rw [div_le_iff₀ hpos'] at hhigh
  rw [div_eq_iff hpos'.ne', div_eq_iff hpos'.ne'] at htie
  refine roundHalfEven_eq hpos ?_ ?_ ?_
  · have : (2 * (m * d) : ℚ) ≤ 2 * n + d := by linarith
    exact_mod_cast this
  · have : (2 * n : ℚ) ≤ 2 * (m * d) + d := by linarith
    exact_mod_cast this
  · rintro (h | h)
    · have h' : (2 * n + d : ℚ) = 2 * (m * d) := by exact_mod_cast h
      exact htie (.inl (by linarith))
    · have h' : (2 * n : ℚ) = 2 * (m * d) + d := by exact_mod_cast h
      exact htie (.inr (by linarith))

theorem below_le (x : Double) : x.below ≤ 2 := by
  unfold below
  split <;> omega

/-- The interval goes at most half a unit below the double. -/
theorem half_unit_le_low (x : Double) : (x.significand - 1 / 2 : ℚ) * 2 ^ x.exponent ≤
    (x.significand - x.below / 4) * 2 ^ x.exponent := by
  have hbelow : (x.below : ℚ) ≤ 2 := by exact_mod_cast x.below_le
  exact mul_le_mul_of_nonneg_right (by linarith) (by positivity)

/-- Only the interval of a power of two reaches numbers that have a smaller unit. -/
theorem Rounds.eq_two_pow {x : Double} {r : ℚ} (hr : x.Rounds r) (he : -1074 < x.exponent)
    (hlt : r < 2 ^ 52 * 2 ^ x.exponent) : x.significand = 2 ^ 52 ∧ x.below = 1 := by
  have hnormal : 2 ^ 52 ≤ x.significand := le_significand he.ne'
  have hhalf : (x.significand - 1 / 2 : ℚ) < 2 ^ 52 :=
    lt_of_mul_lt_mul_right ((x.half_unit_le_low.trans hr.low).trans_lt hlt) (by positivity)
  have hsucc : (x.significand : ℚ) < (2 ^ 52 + 1 : Nat) := by
    push_cast
    linarith
  have hm : x.significand = 2 ^ 52 := by
    have := Nat.cast_lt.1 hsucc
    omega
  exact ⟨hm, if_pos ⟨hm, he⟩⟩

/-- Every number in the rounding interval of a double rounds to it. -/
theorem nearest_of_rounds {x : Double} (hx : x.IsFinite) {num den : Nat} (hnum : 0 < num)
    (hden : 0 < den) (hr : x.Rounds (num / den)) : nearest num den = ⟨UInt64.ofNat x.magnitude⟩ := by
  obtain ⟨u, hu, hsmall, hlarge, hnearest⟩ := exists_unit hnum hden
  suffices hword : roundHalfEven (scaled num den u).1 (scaled num den u).2 +
      (u + 1074).toNat * 2 ^ 52 = x.magnitude by
    rw [hnearest, hword, Nat.min_eq_left hx.le]
  have hlow := x.half_unit_le_low
  rcases lt_trichotomy u x.exponent with hlt | rfl | hgt
  · -- the number is just below a power of two, where the unit is half that of the double
    have hunit (k : Nat) (hk : u + k ≤ x.exponent) : (2 ^ k * 2 ^ u : ℚ) ≤ 2 ^ x.exponent := by
      rw [two_pow_mul]
      exact zpow_le_zpow_right₀ one_le_two (by omega)
    have hupper : (num / den : ℚ) < 2 ^ 52 * 2 ^ x.exponent := by
      linarith [hunit 1 (by omega)]
    obtain ⟨hm, hone⟩ := hr.eq_two_pow (by omega) hupper
    have hlower := hr.low
    rw [hm, hone] at hlower
    push_cast at hlower
    obtain rfl : u = x.exponent - 1 := by
      by_contra hne
      linarith [hunit 2 (by omega)]
    have hhalf : (2 : ℚ) ^ x.exponent = 2 * 2 ^ (x.exponent - 1) := by
      rw [← zpow_one_add₀ two_ne_zero, add_sub_cancel]
    rw [hhalf] at hlower hupper
    have hround : roundHalfEven (scaled num den (x.exponent - 1)).1
        (scaled num den (x.exponent - 1)).2 = 2 ^ 53 := by
      refine roundHalfEven_scaled hden ?_ ?_ fun _ => by decide
      · push_cast
        linarith
      · push_cast
        linarith
    rw [hround, magnitude_eq, hm]
    omega
  · have hround := roundHalfEven_scaled hden (hlow.trans hr.low) hr.high fun htie =>
      hr.closed (htie.imp (fun heq => le_antisymm (heq.trans_le hlow) hr.low) id)
    rw [hround, magnitude_eq]
  · -- the interval of the double ends below the least number that has this unit
    have hm : (x.significand : ℚ) + 1 ≤ 2 ^ 53 := by exact_mod_cast x.significand_lt
    have hunit : (2 ^ 1 * 2 ^ x.exponent : ℚ) ≤ 2 ^ u := by
      rw [two_pow_mul]
      exact zpow_le_zpow_right₀ one_le_two (by omega)
    have hupper : (num / den : ℚ) < 2 ^ 53 * 2 ^ x.exponent := by
      refine hr.high.trans_lt ?_
      gcongr
      linarith
    have hleast := hlarge (by have := x.le_exponent; omega)
    linarith

end Double
end Horn

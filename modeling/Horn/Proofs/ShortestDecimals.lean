import Horn.Proofs.Rounding

/-!
The shortest decimal of a double reads back as the double.  The last of the grids that are tried is
finer than the rounding interval is wide, so one of them has a point inside, and every decimal
inside rounds to the double.
-/

namespace Horn

/-! ## Powers as fractions -/

/-- Numerator and denominator of `b ^ k`. -/
def powerParts (b : Nat) (k : Int) : Nat × Nat :=
  if 0 ≤ k then (b ^ k.toNat, 1) else (1, b ^ (-k).toNat)

section

variable {b : Nat} (k : Int)

theorem powerParts_pos (hb : 0 < b) : 0 < (powerParts b k).1 ∧ 0 < (powerParts b k).2 := by
  unfold powerParts
  split
  · exact ⟨Nat.pow_pos hb, Nat.one_pos⟩
  · exact ⟨Nat.one_pos, Nat.pow_pos hb⟩

theorem powerParts_div (hb : 0 < b) :
    ((powerParts b k).1 : ℚ) / (powerParts b k).2 = (b : ℚ) ^ k := by
  have hb' : (b : ℚ) ≠ 0 := by positivity
  unfold powerParts
  split
  next h =>
    push_cast
    rw [div_one, ← zpow_natCast, Int.toNat_of_nonneg h]
  next h =>
    push_cast
    rw [one_div, ← zpow_natCast, Int.toNat_of_nonneg (by omega), zpow_neg, inv_inv]

end

/-! ## The size of a decimal -/

namespace Decimal

theorem lt_pow_digitCount (n : Nat) : n < 10 ^ digitCount n :=
  (Nat.length_toDigits_le_iff (by decide) Nat.length_toDigits_pos).1 le_rfl

theorem pow_digitCount_le {n : Nat} (h : 0 < n) : 10 ^ (digitCount n - 1) ≤ n := by
  by_cases hone : digitCount n = 1
  · rw [hone]
    exact h
  · have hpos : 0 < digitCount n := Nat.length_toDigits_pos
    refine not_lt.1 fun hlt => ?_
    have := (Nat.length_toDigits_le_iff (by decide) (by omega)).2 hlt
    unfold digitCount at *
    omega

/-- The number that a decimal denotes. -/
def value (d : Decimal) : ℚ := d.coefficient * 10 ^ d.exponent

theorem value_lt (d : Decimal) : d.value < 10 ^ (d.exponent + digitCount d.coefficient) := by
  have hlt : (d.coefficient : ℚ) < 10 ^ digitCount d.coefficient := by
    exact_mod_cast lt_pow_digitCount d.coefficient
  rw [value, add_comm, zpow_add₀ (by norm_num), zpow_natCast]
  gcongr

theorem le_value {d : Decimal} (h : 0 < d.coefficient) :
    (10 : ℚ) ^ (d.exponent + digitCount d.coefficient - 1) ≤ d.value := by
  have hle : (10 : ℚ) ^ (digitCount d.coefficient - 1) ≤ d.coefficient := by
    exact_mod_cast pow_digitCount_le h
  have hpos : 0 < digitCount d.coefficient := Nat.length_toDigits_pos
  have hsum : d.exponent + digitCount d.coefficient - 1 =
      (digitCount d.coefficient - 1 : Nat) + d.exponent := by omega
  rw [value, hsum, zpow_add₀ (by norm_num), zpow_natCast]
  gcongr

end Decimal

namespace Double

/-! ## The largest and the least double -/

theorem cast_pow_lt {a b m n : Nat} (h : a ^ m < b ^ n) : (a : ℚ) ^ m < (b : ℚ) ^ n := by
  exact_mod_cast h

theorem ten_pow_lt_least : (10 : ℚ) ^ (-324 : Int) < 1 / 2 * 2 ^ (-1074 : Int) := by
  have hpow := cast_pow_lt (by decide +kernel : 2 ^ 1075 < 10 ^ 324)
  rw [Nat.cast_ofNat, Nat.cast_ofNat] at hpow
  rw [zpow_neg, zpow_neg, zpow_ofNat, zpow_ofNat, one_div, ← mul_inv, ← pow_succ']
  exact inv_strictAnti₀ (by positivity) hpow

theorem largest_lt_ten_pow : (2 : ℚ) ^ 53 * 2 ^ (971 : Int) < 10 ^ (309 : Int) := by
  have hpow := cast_pow_lt (by decide +kernel : 2 ^ (53 + 971) < 10 ^ 309)
  rw [Nat.cast_ofNat, Nat.cast_ofNat] at hpow
  rwa [zpow_ofNat, zpow_ofNat, ← pow_add]

/-! ## Reading a decimal inside the interval -/

section

variable {x : Double} (hx : x.IsFinite) (hpos : 0 < x.magnitude)

include hpos in
theorem Rounds.lt_value {r : ℚ} (hr : x.Rounds r) : (10 : ℚ) ^ (-324 : Int) < r := by
  have hm : (1 : ℚ) ≤ x.significand := by exact_mod_cast significand_pos hpos
  have hbelow : (x.below : ℚ) ≤ 2 := by exact_mod_cast x.below_le
  calc (10 : ℚ) ^ (-324 : Int) < 1 / 2 * 2 ^ (-1074 : Int) := ten_pow_lt_least
    _ ≤ (x.significand - x.below / 4) * 2 ^ x.exponent :=
      mul_le_mul (by linarith) (zpow_le_zpow_right₀ one_le_two x.le_exponent) (by positivity)
        (by linarith)
    _ ≤ r := hr.low

include hx in
theorem Rounds.value_lt {r : ℚ} (hr : x.Rounds r) : r < (10 : ℚ) ^ (309 : Int) := by
  have hm : (x.significand : ℚ) + 1 ≤ 2 ^ 53 := by exact_mod_cast x.significand_lt
  calc r ≤ (x.significand + 1 / 2) * 2 ^ x.exponent := hr.high
    _ ≤ 2 ^ 53 * 2 ^ (971 : Int) :=
      mul_le_mul (by linarith) (zpow_le_zpow_right₀ one_le_two (exponent_le hx)) (by positivity)
        (by positivity)
    _ < 10 ^ (309 : Int) := largest_lt_ten_pow

include hpos in
theorem Rounds.coefficient_pos {d : Decimal} (hr : x.Rounds d.value) : 0 < d.coefficient := by
  have hlow := hr.lt_value hpos
  refine Nat.pos_of_ne_zero fun hzero => ?_
  rw [Decimal.value, hzero, Nat.cast_zero, zero_mul] at hlow
  exact absurd hlow (not_lt.2 (by positivity))

include hx hpos in
/-- A decimal in the rounding interval is read as the double. -/
theorem toDouble_of_rounds {d : Decimal} (hr : x.Rounds d.value) :
    d.toDouble = ⟨UInt64.ofNat x.magnitude⟩ := by
  have hlow := hr.lt_value hpos
  have hhigh := hr.value_lt hx
  have hd := hr.coefficient_pos hpos
  have htop : d.exponent + Decimal.digitCount d.coefficient ≤ 309 := by
    have := (zpow_lt_zpow_iff_right₀ (by norm_num)).1
      ((Decimal.le_value hd).trans_lt hhigh)
    omega
  have hbottom : -324 < d.exponent + Decimal.digitCount d.coefficient :=
    (zpow_lt_zpow_iff_right₀ (by norm_num)).1 (hlow.trans d.value_lt)
  unfold Decimal.toDouble
  simp only [Nat.pow_eq]
  rw [if_neg hd.ne', if_neg (by omega), if_neg (by omega)]
  split
  next h =>
    refine nearest_of_rounds hx (by positivity) Nat.one_pos ?_
    convert hr using 1
    rw [Decimal.value]
    push_cast
    rw [div_one, ← zpow_natCast, Int.toNat_of_nonneg h]
  next h =>
    refine nearest_of_rounds hx hd (by positivity) ?_
    convert hr using 1
    rw [Decimal.value]
    push_cast
    rw [← zpow_natCast, Int.toNat_of_nonneg (by omega), zpow_neg, div_inv_eq_mul]

end

/-! ## The interval as integers -/

namespace RoundingInterval

/-- The point `d * 10 ^ place` lies in the interval. -/
def contains (i : RoundingInterval) (place : Int) (d : Nat) : Bool :=
  let low := i.low * (powerParts 10 place).2
  let point := d * (i.den * (powerParts 10 place).1)
  let high := i.high * (powerParts 10 place).2
  if i.closed then low ≤ point && point ≤ high else low < point && point < high

section

variable {n den : Nat} (hden : 0 < den) (d : Nat) (place : Int)

include hden

/-- A fraction and a point of a grid over their common denominator. -/
theorem common_den :
    (n / den : ℚ) = (n * (powerParts 10 place).2 : Nat) / (den * (powerParts 10 place).2 : Nat) ∧
      Decimal.value ⟨d, place⟩ =
        (d * (den * (powerParts 10 place).1) : Nat) / (den * (powerParts 10 place).2 : Nat) := by
  have hpower := powerParts_div place (by decide : 0 < 10)
  have hdown := (powerParts_pos place (by decide : 0 < 10)).2
  have hden' : (den : ℚ) ≠ 0 := by positivity
  have hdown' : ((powerParts 10 place).2 : ℚ) ≠ 0 := by positivity
  rw [Nat.cast_ofNat] at hpower
  rw [Decimal.value, ← hpower]
  push_cast
  constructor <;> field_simp

theorem le_value_iff : (n / den : ℚ) ≤ Decimal.value ⟨d, place⟩ ↔
    n * (powerParts 10 place).2 ≤ d * (den * (powerParts 10 place).1) := by
  obtain ⟨hfraction, hpoint⟩ := common_den hden (n := n) d place
  have hdown := (powerParts_pos place (by decide : 0 < 10)).2
  rw [hfraction, hpoint, div_le_div_iff_of_pos_right (by positivity), Nat.cast_le]

theorem value_le_iff : Decimal.value ⟨d, place⟩ ≤ (n / den : ℚ) ↔
    d * (den * (powerParts 10 place).1) ≤ n * (powerParts 10 place).2 := by
  obtain ⟨hfraction, hpoint⟩ := common_den hden (n := n) d place
  have hdown := (powerParts_pos place (by decide : 0 < 10)).2
  rw [hfraction, hpoint, div_le_div_iff_of_pos_right (by positivity), Nat.cast_le]

theorem value_eq_iff : Decimal.value ⟨d, place⟩ = (n / den : ℚ) ↔
    d * (den * (powerParts 10 place).1) = n * (powerParts 10 place).2 := by
  rw [le_antisymm_iff, value_le_iff hden, le_value_iff hden, Nat.le_antisymm_iff]

end

/-- A point in the interval is between its ends, and at an end only if the interval is closed. -/
theorem contains_iff {i : RoundingInterval} (hden : 0 < i.den) {place : Int} {d : Nat} :
    i.contains place d = true ↔
      (i.low / i.den : ℚ) ≤ Decimal.value ⟨d, place⟩ ∧ Decimal.value ⟨d, place⟩ ≤ i.high / i.den ∧
        (Decimal.value ⟨d, place⟩ = i.low / i.den ∨ Decimal.value ⟨d, place⟩ = i.high / i.den →
          i.closed = true) := by
  rw [value_eq_iff hden, value_eq_iff hden, le_value_iff hden, value_le_iff hden, contains]
  cases i.closed
  · simp
    omega
  · simp

end RoundingInterval

/-! ## The interval of a double -/

section

variable (x : Double)

theorem roundingInterval_eq : x.roundingInterval =
    { low := (4 * x.significand - x.below) * (powerParts 2 (x.exponent - 2)).1
      value := 4 * x.significand * (powerParts 2 (x.exponent - 2)).1
      high := (4 * x.significand + 2) * (powerParts 2 (x.exponent - 2)).1
      den := (powerParts 2 (x.exponent - 2)).2
      closed := x.significand % 2 == 0 } := rfl

theorem roundingInterval_den_pos : 0 < x.roundingInterval.den :=
  (powerParts_pos (x.exponent - 2) (by decide : 0 < 2)).2

/-- A number of quarters of the unit. -/
theorem quarters_div (n : Nat) :
    ((n * (powerParts 2 (x.exponent - 2)).1 : Nat) / x.roundingInterval.den : ℚ) =
      n / 4 * 2 ^ x.exponent := by
  have hpower := powerParts_div (x.exponent - 2) (by decide : 0 < 2)
  rw [zpow_sub₀ (by positivity)] at hpower
  push_cast at hpower ⊢
  rw [mul_div_assoc]
  refine (congrArg ((n : ℚ) * ·) hpower).trans ?_
  ring

variable {x} (hpos : 0 < x.magnitude)

include hpos

theorem low_div : (x.roundingInterval.low / x.roundingInterval.den : ℚ) =
    (x.significand - x.below / 4) * 2 ^ x.exponent := by
  have hle : x.below ≤ 4 * x.significand := by
    have := x.below_le
    have := significand_pos hpos
    omega
  refine (quarters_div x (4 * x.significand - x.below)).trans ?_
  push_cast [hle]
  ring

omit hpos in
theorem high_div : (x.roundingInterval.high / x.roundingInterval.den : ℚ) =
    (x.significand + 1 / 2) * 2 ^ x.exponent := by
  refine (quarters_div x (4 * x.significand + 2)).trans ?_
  push_cast
  ring

omit hpos in
theorem value_div : (x.roundingInterval.value / x.roundingInterval.den : ℚ) =
    x.significand * 2 ^ x.exponent := by
  refine (quarters_div x (4 * x.significand)).trans ?_
  push_cast
  ring

/-- The points that the search accepts are those that round to the double. -/
theorem rounds_of_contains {place : Int} {d : Nat}
    (h : x.roundingInterval.contains place d = true) : x.Rounds (Decimal.value ⟨d, place⟩) := by
  obtain ⟨hlow, hhigh, hclosed⟩ := (RoundingInterval.contains_iff x.roundingInterval_den_pos).1 h
  rw [low_div hpos, high_div] at *
  exact ⟨hlow, hhigh, fun hend => beq_iff_eq.1 (hclosed hend)⟩

end

/-! ## The search for a point -/

namespace RoundingInterval

/-- The last point of a grid that is not above the value. -/
def floor (i : RoundingInterval) (place : Int) : Nat :=
  i.value * (powerParts 10 place).2 / (i.den * (powerParts 10 place).1)

/-- What the search finds on a grid is a point of this grid in the interval. -/
theorem contains_of_gridPoint {i : RoundingInterval} {place : Int} {p : Decimal}
    (h : gridPoint? i place = some p) :
    i.contains place p.coefficient = true ∧ p.exponent = place := by
  change (if i.contains place (i.floor place) && (_ || !i.contains place (i.floor place + 1)) then _
    else if i.contains place (i.floor place + 1) then _ else _) = _ at h
  split at h
  next hfloor =>
    cases h
    exact ⟨(Bool.and_eq_true_iff.1 hfloor).1, rfl⟩
  next =>
    split at h
    next hnext =>
      cases h
      exact ⟨hnext, rfl⟩
    next => cases h

theorem not_contains_of_gridPoint {i : RoundingInterval} {place : Int}
    (h : gridPoint? i place = none) :
    i.contains place (i.floor place) = false ∧ i.contains place (i.floor place + 1) = false := by
  change (if i.contains place (i.floor place) && (_ || !i.contains place (i.floor place + 1)) then _
    else if i.contains place (i.floor place + 1) then _ else _) = _ at h
  split at h
  next => cases h
  next hfloor =>
    split at h
    next => cases h
    next hnext => simp_all

/-- A grid finer than the interval is wide has a point in it. -/
theorem exists_gridPoint {i : RoundingInterval} {place : Int} (hden : 0 < i.den)
    (hlow : i.low < i.value) (hhigh : i.value < i.high)
    (hwide : i.low * (powerParts 10 place).2 + i.den * (powerParts 10 place).1 <
      i.high * (powerParts 10 place).2) : ∃ p, gridPoint? i place = some p := by
  refine Option.ne_none_iff_exists'.1 fun hnone => ?_
  obtain ⟨hfloor, hnext⟩ := not_contains_of_gridPoint hnone
  obtain ⟨hup, hdown⟩ := powerParts_pos place (by decide : 0 < 10)
  have hbelow : i.floor place * (i.den * (powerParts 10 place).1) ≤
      i.value * (powerParts 10 place).2 := Nat.div_mul_le_self _ _
  have habove : i.value * (powerParts 10 place).2 <
      (i.floor place + 1) * (i.den * (powerParts 10 place).1) := by
    rw [Nat.mul_comm (i.floor place + 1)]
    exact Nat.lt_mul_div_succ _ (Nat.mul_pos hden hup)
  have hlow' := Nat.mul_lt_mul_of_pos_right hlow hdown
  have hhigh' := Nat.mul_lt_mul_of_pos_right hhigh hdown
  unfold contains at hfloor hnext
  rw [Nat.succ_mul] at habove
  cases hclosed : i.closed
  · simp [hclosed, Nat.succ_mul] at hfloor hnext
    omega
  · simp [hclosed, Nat.succ_mul] at hfloor hnext
    omega

end RoundingInterval

/-- The leading digit of a number stands at its leading place. -/
theorem pow_leadingPlace_le {num den : Nat} (hnum : 0 < num) (hden : 0 < den) :
    (10 : ℚ) ^ leadingPlace num den ≤ num / den := by
  have hden' : (0 : ℚ) < den := by exact_mod_cast hden
  unfold leadingPlace
  split
  next hle =>
    have hquotient : 0 < num / den := Nat.div_pos hle hden
    have hpos : 0 < Decimal.digitCount (num / den) := Nat.length_toDigits_pos
    have hpow := Nat.mul_le_of_le_div _ _ _ (Decimal.pow_digitCount_le hquotient)
    rw [← Nat.cast_pred hpos, zpow_natCast, le_div_iff₀ hden']
    exact_mod_cast hpow
  next hlt =>
    have hpow := Decimal.lt_pow_digitCount ((den - 1) / num)
    rw [Nat.div_lt_iff_lt_mul hnum] at hpow
    have hle : den ≤ num * 10 ^ Decimal.digitCount ((den - 1) / num) := by
      rw [Nat.mul_comm]
      omega
    rw [zpow_neg, zpow_natCast, inv_le_comm₀ (by positivity) (by positivity), inv_div,
      div_le_iff₀ (by positivity), mul_comm]
    exact_mod_cast hle

/-! ## The shortest decimal -/

section

variable {x : Double} (hpos : 0 < x.magnitude)

include hpos

theorem interval_order : x.roundingInterval.low < x.roundingInterval.value ∧
    x.roundingInterval.value < x.roundingInterval.high := by
  have hm := significand_pos hpos
  have hbelow : 0 < x.below := by
    unfold below
    split <;> omega
  have hup := (powerParts_pos (x.exponent - 2) (by decide : 0 < 2)).1
  rw [roundingInterval_eq]
  exact ⟨Nat.mul_lt_mul_of_pos_right (by omega) hup, Nat.mul_lt_mul_of_pos_right (by omega) hup⟩

/-- Seventeen digits are enough. -/
theorem exists_gridPoint_last : ∃ p, gridPoint? x.roundingInterval
    (leadingPlace x.roundingInterval.value x.roundingInterval.den - 16) = some p := by
  have hden := x.roundingInterval_den_pos
  obtain ⟨hlow, hhigh⟩ := interval_order hpos
  refine RoundingInterval.exists_gridPoint hden hlow hhigh ?_
  have htop := pow_leadingPlace_le (Nat.zero_lt_of_lt hlow) hden
  generalize leadingPlace x.roundingInterval.value x.roundingInterval.den = top at htop ⊢
  obtain ⟨hup, hdown⟩ := powerParts_pos (top - 16) (by decide : 0 < 10)
  have hstep := powerParts_div (top - 16) (by decide : 0 < 10)
  have hpow : (0 : ℚ) < 2 ^ x.exponent := by positivity
  -- the step of the grid against the width of the interval, in units of the significand
  have hwidth : (x.significand / 10 ^ 16 : ℚ) < x.below / 4 + 1 / 2 := by
    have hm : (x.significand : ℚ) + 1 ≤ 2 ^ 53 := by exact_mod_cast x.significand_lt
    unfold below
    split
    next h =>
      rw [h.1]
      norm_num
    next =>
      push_cast
      linarith
  have hreal : (x.roundingInterval.low / x.roundingInterval.den : ℚ) + 10 ^ (top - 16) <
      x.roundingInterval.high / x.roundingInterval.den := by
    rw [value_div] at htop
    rw [low_div hpos, high_div, zpow_sub₀ (by norm_num), zpow_ofNat]
    have := mul_lt_mul_of_pos_right hwidth hpow
    linarith
  rw [Nat.cast_ofNat] at hstep
  rw [← hstep, div_add_div _ _ (by positivity) (by positivity),
    div_lt_div_iff₀ (by positivity) (by positivity), ← mul_assoc, mul_right_comm] at hreal
  exact_mod_cast lt_of_mul_lt_mul_right hreal (by positivity)

/-- The shortest decimal is in the rounding interval. -/
theorem rounds_shortest : x.Rounds x.shortest.value := by
  obtain ⟨p, hp⟩ := exists_gridPoint_last hpos
  obtain ⟨q, hq⟩ : ∃ q, (List.range 17).findSome? (fun n : Nat => gridPoint? x.roundingInterval
      (leadingPlace x.roundingInterval.value x.roundingInterval.den - n)) = some q := by
    refine Option.isSome_iff_exists.1 (List.findSome?_isSome_iff.2 ⟨16, by decide, ?_⟩)
    exact Option.isSome_iff_exists.2 ⟨p, hp⟩
  obtain ⟨n, -, hn⟩ := List.exists_of_findSome?_eq_some hq
  obtain ⟨hcontains, hplace⟩ := RoundingInterval.contains_of_gridPoint hn
  have hshortest : x.shortest = q := by
    unfold shortest
    dsimp only
    rw [hq, Option.getD_some]
  rw [← hplace] at hcontains
  rw [hshortest]
  exact rounds_of_contains hpos hcontains

omit hpos in
theorem ofNat_magnitude (hsign : x.isNegative = false) : ⟨UInt64.ofNat x.magnitude⟩ = x := by
  have hlt : x.bits.toNat < 2 ^ 63 := not_le.1 (of_decide_eq_false hsign)
  have hself : x.magnitude = x.bits.toNat := Nat.mod_eq_of_lt hlt
  rw [hself, UInt64.ofNat_toNat]

/-- Reading the shortest decimal of a positive double gives the double back. -/
theorem toDouble_shortest (hx : x.IsFinite) (hsign : x.isNegative = false) :
    x.shortest.toDouble = x := by
  rw [toDouble_of_rounds hx hpos (rounds_shortest hpos), ofNat_magnitude hsign]

end

end Double
end Horn

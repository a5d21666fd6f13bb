import Horn.Evaluation
import Mathlib.Algebra.Order.Field.Rat
import Mathlib.Data.Rat.Floor
import Mathlib.Tactic.Linarith

/-!
Integer arithmetic against the exact operations.  Integers are 64 bits wide, and division goes by a
quotient that leaves no negative remainder and is corrected where the divisor is negative.  The
corrected quotient is the floor of the exact one, and the corrections never leave the range.  An
operation has the exact result for its value whenever this fits, in all but two cases: the remainder
of the least integer by minus one, whose quotient does not fit, and powers of 0, 1 and -1 whose
exponents are beyond 32 bits.
-/

namespace Horn

namespace Number

/-! ## Integers that fit -/

/-- What 64 bits with a sign hold. -/
def Fits (n : Int) : Prop := -2 ^ 63 ≤ n ∧ n < 2 ^ 63

theorem fits_toInt (x : Int64) : Fits x.toInt := ⟨x.le_toInt, x.toInt_lt⟩

theorem toInt_ofInt {n : Int} (h : Fits n) : (Int64.ofInt n).toInt = n :=
  Int64.toInt_ofInt_of_le h.1 h.2

theorem toInt_sub {x y : Int64} (h : Fits (x.toInt - y.toInt)) :
    (x - y).toInt = x.toInt - y.toInt := by
  rw [← toInt_ofInt h, Int64.ofInt_sub, Int64.ofInt_toInt, Int64.ofInt_toInt]

theorem toInt_add {x y : Int64} (h : Fits (x.toInt + y.toInt)) :
    (x + y).toInt = x.toInt + y.toInt := by
  rw [← toInt_ofInt h, Int64.ofInt_add, Int64.ofInt_toInt, Int64.ofInt_toInt]

theorem toInt_ne_zero {x : Int64} : x.toInt ≠ 0 ↔ x ≠ 0 := by
  rw [ne_eq, ne_eq, ← Int64.toInt_inj, Int64.toInt_zero]

theorem toInt_neg_iff {x : Int64} : x < 0 ↔ x.toInt < 0 := by
  rw [Int64.lt_iff_toInt_lt, Int64.toInt_zero]

theorem ofInt?_eq_some {n : Int} (h : Fits n) : ofInt? n = some (.int (Int64.ofInt n)) :=
  if_pos ⟨h.1, Int.le_of_lt_add_one h.2⟩

theorem ofInt?_eq_none {n : Int} (h : ¬Fits n) : ofInt? n = none :=
  if_neg fun hn => h ⟨hn.1, Int.lt_add_one_of_le hn.2⟩

/-! ## Division -/

/-- Rounding down takes one off the quotient that leaves no negative remainder where the divisor is
negative and leaves one. -/
theorem floor_div (m : Int) {n : Int} (hn : n ≠ 0) :
    ⌊(m : ℚ) / n⌋ = if n < 0 ∧ m % n ≠ 0 then m / n - 1 else m / n := by
  have hsplit : n * (m / n) + m % n = m := Int.mul_ediv_add_emod m n
  have hleast : 0 ≤ m % n := Int.emod_nonneg m hn
  rw [Int.floor_eq_iff]
  rcases lt_or_gt_of_ne hn with hneg | hpos
  · have hlast : m % n < -n := Int.emod_lt_of_neg m hneg
    have hnegQ : (n : ℚ) < 0 := by exact_mod_cast hneg
    rw [le_div_iff_of_neg hnegQ, div_lt_iff_of_neg hnegQ]
    split
    next h =>
      have hleft : 0 < m % n := lt_of_le_of_ne hleast h.2.symm
      constructor
      · exact_mod_cast (by nlinarith : m ≤ (m / n - 1) * n)
      · exact_mod_cast (by nlinarith : (m / n - 1 + 1) * n < m)
    next h =>
      have hzero : m % n = 0 := by simpa [hneg] using h
      constructor
      · exact_mod_cast (by nlinarith : m ≤ m / n * n)
      · exact_mod_cast (by nlinarith : (m / n + 1) * n < m)
  · have hlast : m % n < n := Int.emod_lt_of_pos m hpos
    have hposQ : (0 : ℚ) < n := by exact_mod_cast hpos
    rw [le_div_iff₀ hposQ, div_lt_iff₀ hposQ, if_neg (by omega)]
    constructor
    · exact_mod_cast (by nlinarith : m / n * n ≤ m)
    · exact_mod_cast (by nlinarith : m < (m / n + 1) * n)

/-- Only the opposite of the least integer is a quotient that does not fit. -/
theorem fits_ediv {m n : Int} (hm : Fits m) (hn : n ≠ 0) (h : ¬(m = -2 ^ 63 ∧ n = -1)) :
    Fits (m / n) := by
  have hsplit : n * (m / n) + m % n = m := Int.mul_ediv_add_emod m n
  have hleast : 0 ≤ m % n := Int.emod_nonneg m hn
  obtain ⟨hlow, hhigh⟩ := hm
  rcases lt_or_gt_of_ne hn with hneg | hpos
  · have hlast : m % n < -n := Int.emod_lt_of_neg m hneg
    refine ⟨?_, ?_⟩
    · by_contra hq
      nlinarith
    · by_contra hq
      by_cases hone : n = -1
      · subst hone
        omega
      · have htwo : n ≤ -2 := by omega
        nlinarith
  · have hlast : m % n < n := Int.emod_lt_of_pos m hpos
    refine ⟨?_, ?_⟩
    · by_contra hq
      nlinarith
    · by_contra hq
      nlinarith

theorem fits_emod (m : Int) {n : Int} (hn : n ≠ 0) (hfits : Fits n) : Fits (m % n) := by
  have hleast : 0 ≤ m % n := Int.emod_nonneg m hn
  have hlast : m % n < n.natAbs := Int.emod_lt m hn
  obtain ⟨hlow, hhigh⟩ := hfits
  constructor <;> omega

theorem toInt_eq_minValue {x : Int64} : x.toInt = -2 ^ 63 ↔ x = Int64.minValue := by
  rw [← Int64.toInt_inj]
  exact Iff.rfl

theorem toInt_eq_neg_one {x : Int64} : x.toInt = -1 ↔ x = -1 := by
  rw [← Int64.toInt_inj]
  exact Iff.rfl

section

variable {x y q r : Int64}

/-- Where there is a quotient, both parts of a division are the exact ones. -/
theorem euclidean?_eq_some_iff :
    euclidean? x y = some (q, r) ↔ y ≠ 0 ∧ ¬(x = Int64.minValue ∧ y = -1) ∧
      q.toInt = x.toInt / y.toInt ∧ r.toInt = x.toInt % y.toInt := by
  rw [euclidean?]
  by_cases hnone : y = 0 ∨ x = Int64.minValue ∧ y = -1
  · rw [if_pos hnone]
    rcases hnone with h | h <;> simp [h]
  · rw [if_neg hnone]
    obtain ⟨hy, hleast⟩ := not_or.1 hnone
    have hq : Fits (x.toInt / y.toInt) := by
      refine fits_ediv (fits_toInt x) (toInt_ne_zero.2 hy) ?_
      rwa [toInt_eq_minValue, toInt_eq_neg_one]
    have hr : Fits (x.toInt % y.toInt) := fits_emod _ (toInt_ne_zero.2 hy) (fits_toInt y)
    rw [Option.some.injEq, Prod.mk.injEq, ← Int64.toInt_inj, ← Int64.toInt_inj, toInt_ofInt hq,
      toInt_ofInt hr]
    exact ⟨fun h => ⟨hy, hleast, h.1.symm, h.2.symm⟩, fun h => ⟨h.2.2.1.symm, h.2.2.2.symm⟩⟩

/-- A division takes the dividend apart. -/
theorem mul_add_of_euclidean? (h : euclidean? x y = some (q, r)) :
    y.toInt * q.toInt + r.toInt = x.toInt ∧ 0 ≤ r.toInt := by
  obtain ⟨hy, -, hquotient, hremainder⟩ := euclidean?_eq_some_iff.1 h
  rw [hquotient, hremainder]
  exact ⟨Int.mul_ediv_add_emod _ _, Int.emod_nonneg _ (toInt_ne_zero.2 hy)⟩

/-- A remainder under a negative divisor is less than its opposite. -/
theorem remainder_lt (h : euclidean? x y = some (q, r)) (hneg : y < 0) : r.toInt < -y.toInt := by
  obtain ⟨-, -, -, hremainder⟩ := euclidean?_eq_some_iff.1 h
  exact hremainder ▸ Int.emod_lt_of_neg _ (toInt_neg_iff.1 hneg)

theorem exists_euclidean? (hy : y ≠ 0) (h : ¬(x = Int64.minValue ∧ y = -1)) :
    ∃ q r, euclidean? x y = some (q, r) := by
  rw [euclidean?, if_neg (not_or.2 ⟨hy, h⟩)]
  exact ⟨_, _, rfl⟩

/-- Under a negative divisor neither correction leaves the range: the quotient is not the least
integer, and the remainder is less than what is taken from it. -/
theorem corrections_fit (h : euclidean? x y = some (q, r)) (hneg : y < 0) :
    Fits (q.toInt - 1) ∧ Fits (r.toInt + y.toInt) := by
  obtain ⟨hsplit, hleast⟩ := mul_add_of_euclidean? h
  have hlast : r.toInt < -y.toInt := remainder_lt h hneg
  rw [toInt_neg_iff] at hneg
  obtain ⟨hxlow, hxhigh⟩ := fits_toInt x
  obtain ⟨hylow, hyhigh⟩ := fits_toInt y
  obtain ⟨hqlow, hqhigh⟩ := fits_toInt q
  refine ⟨⟨?_, by omega⟩, by omega, by omega⟩
  by_contra hq
  nlinarith

/-- The floor of the exact quotient, by the corrected one. -/
theorem floor_eq_of_euclidean? (h : euclidean? x y = some (q, r)) :
    ⌊(x.toInt : ℚ) / y.toInt⌋ = if y < 0 ∧ r ≠ 0 then q.toInt - 1 else q.toInt := by
  obtain ⟨hy, -, hquotient, hremainder⟩ := euclidean?_eq_some_iff.1 h
  rw [floor_div _ (toInt_ne_zero.2 hy), ← hquotient, ← hremainder]
  simp only [toInt_neg_iff, toInt_ne_zero]

theorem floorDiv?_eq_some_iff {z : Int64} : floorDiv? x y = some z ↔
    ∃ q r, euclidean? x y = some (q, r) ∧ (if y < 0 ∧ r ≠ 0 then q - 1 else q) = z := by
  simp only [floorDiv?, Option.map_eq_some_iff, Prod.exists]

theorem floorMod?_eq_some_iff {z : Int64} : floorMod? x y = some z ↔
    ∃ q r, euclidean? x y = some (q, r) ∧ (if y < 0 ∧ r ≠ 0 then r + y else r) = z := by
  simp only [floorMod?, Option.map_eq_some_iff, Prod.exists]

/-- Division rounds down. -/
theorem toInt_floorDiv? {z : Int64} (h : floorDiv? x y = some z) :
    z.toInt = ⌊(x.toInt : ℚ) / y.toInt⌋ := by
  obtain ⟨q, r, hdiv, rfl⟩ := floorDiv?_eq_some_iff.1 h
  rw [floor_eq_of_euclidean? hdiv]
  split
  next hcorrect => exact toInt_sub (corrections_fit hdiv hcorrect.1).1
  next => rfl

/-- The remainder is what division by rounding down leaves. -/
theorem toInt_floorMod? {z : Int64} (h : floorMod? x y = some z) :
    z.toInt = x.toInt - y.toInt * ⌊(x.toInt : ℚ) / y.toInt⌋ := by
  obtain ⟨q, r, hdiv, rfl⟩ := floorMod?_eq_some_iff.1 h
  have hsplit := (mul_add_of_euclidean? hdiv).1
  rw [floor_eq_of_euclidean? hdiv]
  split
  next hcorrect =>
    rw [toInt_add (corrections_fit hdiv hcorrect.1).2]
    linarith
  next => linarith

/-- The remainder is nothing or has the sign of the divisor. -/
theorem sign_floorMod? {z : Int64} (h : floorMod? x y = some z) :
    z = 0 ∨ z.toInt.sign = y.toInt.sign := by
  obtain ⟨q, r, hdiv, rfl⟩ := floorMod?_eq_some_iff.1 h
  have hleast := (mul_add_of_euclidean? hdiv).2
  split
  next hcorrect =>
    have hneg : y.toInt < 0 := toInt_neg_iff.1 hcorrect.1
    have hlast : r.toInt < -y.toInt := remainder_lt hdiv hcorrect.1
    rw [toInt_add (corrections_fit hdiv hcorrect.1).2, Int.sign_eq_neg_one_of_neg hneg,
      Int.sign_eq_neg_one_of_neg (by omega)]
    exact .inr rfl
  next hcorrect =>
    by_cases hzero : r = 0
    · exact .inl hzero
    · have hpos : 0 < y.toInt := by
        have hnonneg : ¬y < 0 := fun hneg => hcorrect ⟨hneg, hzero⟩
        rw [toInt_neg_iff] at hnonneg
        have hy := toInt_ne_zero.2 (euclidean?_eq_some_iff.1 hdiv).1
        omega
      have hleft : 0 < r.toInt := lt_of_le_of_ne hleast (toInt_ne_zero.2 hzero).symm
      rw [Int.sign_eq_one_of_pos hpos, Int.sign_eq_one_of_pos hleft]
      exact .inr rfl

example : floorDiv? 7 (-3) = some (-3) ∧ floorMod? 7 (-3) = some (-2) := by decide

end

/-! ## Powers -/

/-- No power beyond the 63rd fits, but for the bases 0, 1 and -1. -/
theorem not_fits_pow {m : Int} (hm : 2 ≤ m.natAbs) {k : Nat} (hk : 63 < k) : ¬Fits (m ^ k) := by
  have hbig : 2 ^ 64 ≤ (m ^ k).natAbs := by
    rw [Int.natAbs_pow]
    calc 2 ^ 64 ≤ 2 ^ k := Nat.pow_le_pow_right (by decide) hk
      _ ≤ m.natAbs ^ k := Nat.pow_le_pow_left hm k
  rintro ⟨hlow, hhigh⟩
  omega

/-- The powers of 0, 1 and -1 depend on whether the exponent is even, and the power to zero is one. -/
theorem pow_of_natAbs_lt_two {m : Int} (hm : m.natAbs < 2) (k : Nat) :
    m ^ k = if k = 0 then 1 else m.pow (if k % 2 = 0 then 2 else 1) := by
  have hcases : m = 0 ∨ m = 1 ∨ m = -1 := by omega
  by_cases hk : k = 0
  · rw [if_pos hk, hk, pow_zero]
  · rw [if_neg hk]
    rcases hcases with rfl | rfl | rfl
    · rw [zero_pow hk]
      split <;> rfl
    · rw [one_pow]
      split <;> rfl
    · rcases Nat.even_or_odd k with heven | hodd
      · rw [heven.neg_one_pow, if_pos (Nat.even_iff.1 heven)]
        rfl
      · rw [hodd.neg_one_pow, if_neg (by rw [Nat.odd_iff.1 hodd]; decide)]
        rfl

/-- Below the bound on exponents a power has the exact value when it fits. -/
theorem intPower?_eq {m n : Int} (hn : 0 ≤ n) (hbound : n < 2 ^ 32) :
    intPower? m n = ofInt? (m ^ n.toNat) := by
  rw [intPower?, if_neg (by simpa [UInt32.size] using hbound)]
  split
  next hm =>
    rw [pow_of_natAbs_lt_two hm]
    congr 1
    have hzero : n = 0 ↔ n.toNat = 0 := by omega
    have heven : n % 2 = 0 ↔ n.toNat % 2 = 0 := by omega
    simp only [hzero, heven]
  next hm =>
    split
    next hbig => exact (ofInt?_eq_none (not_fits_pow (by omega) (by omega))).symm
    next => rfl

/-- Beyond the bound there is none. -/
theorem intPower?_eq_none {m n : Int} (hn : 2 ^ 32 ≤ n) : intPower? m n = none :=
  if_pos hn

/-! ## Exact results -/

/-- A value is given just when there is an exact result that fits, and it is this result. -/
def IsExact (result : Option Int) (value : Option Number) : Prop :=
  (value = none ↔ ∀ m, result = some m → ¬Fits m) ∧
    ∀ a, value = some a → ∃ n : Int64, a = .int n ∧ result = some n.toInt

theorem isExact_none : IsExact none none := ⟨by simp, nofun⟩

/-- A result that does not fit is no value. -/
theorem isExact_of_not_fits {m : Int} (h : ¬Fits m) : IsExact (some m) none :=
  ⟨by simpa using h, nofun⟩

theorem isExact_int (n : Int64) : IsExact (some n.toInt) (some (.int n)) :=
  ⟨by simpa using fits_toInt n, fun a ha => ⟨n, (Option.some.inj ha).symm, rfl⟩⟩

theorem isExact_ofInt? (m : Int) : IsExact (some m) (ofInt? m) := by
  by_cases h : Fits m
  · rw [ofInt?_eq_some h]
    have hint := isExact_int (Int64.ofInt m)
    rwa [toInt_ofInt h] at hint
  · rw [ofInt?_eq_none h]
    exact isExact_of_not_fits h

end Number

namespace BinOp

/-- The operations that are computed on integers alone.  Other quotients than whole ones and powers
with negative exponents are left to the doubles. -/
def StaysInteger : BinOp → Int → Prop
  | .div, _ => False
  | .pow, n => 0 ≤ n
  | _, _ => True

/-- The exact result of an operation on integers, if it has one.  Division rounds down. -/
def result? : BinOp → Int → Int → Option Int
  | .add, m, n => some (m + n)
  | .sub, m, n => some (m - n)
  | .mul, m, n => some (m * n)
  | .intDiv, m, n => if n = 0 then none else some ⌊(m : ℚ) / n⌋
  | .mod, m, n => if n = 0 then none else some (m - n * ⌊(m : ℚ) / n⌋)
  | .pow, m, n => if n < 0 then none else some (m ^ n.toNat)
  | .div, _, _ => none

/-- Where no value is given although the exact result fits: the quotient by minus one does not fit
although the remainder does, and the exponent does not fit into 32 bits although the power does. -/
def FallsShort (op : BinOp) (x y : Int64) : Prop :=
  op = .mod ∧ x = Int64.minValue ∧ y = -1 ∨
    op = .pow ∧ 2 ^ 32 ≤ y.toInt ∧ x.toInt.natAbs < 2

end BinOp

namespace Number

variable {x y : Int64}

theorem isExact_floorDiv? (x y : Int64) :
    IsExact (BinOp.result? .intDiv x.toInt y.toInt) ((floorDiv? x y).map .int) := by
  rw [BinOp.result?]
  by_cases hy : y = 0
  · subst hy
    exact isExact_none
  rw [if_neg (toInt_ne_zero.2 hy)]
  by_cases hleast : x = Int64.minValue ∧ y = -1
  · obtain ⟨rfl, rfl⟩ := hleast
    refine isExact_of_not_fits ?_
    rw [floor_div _ (by decide)]
    exact fun h => absurd h.2 (by decide)
  · obtain ⟨q, r, hdiv⟩ := exists_euclidean? hy hleast
    obtain ⟨z, hz⟩ : ∃ z, floorDiv? x y = some z := ⟨_, floorDiv?_eq_some_iff.2 ⟨q, r, hdiv, rfl⟩⟩
    rw [hz, ← toInt_floorDiv? hz]
    exact isExact_int z

theorem isExact_floorMod? (h : ¬(x = Int64.minValue ∧ y = -1)) :
    IsExact (BinOp.result? .mod x.toInt y.toInt) ((floorMod? x y).map .int) := by
  rw [BinOp.result?]
  by_cases hy : y = 0
  · subst hy
    exact isExact_none
  rw [if_neg (toInt_ne_zero.2 hy)]
  obtain ⟨q, r, hdiv⟩ := exists_euclidean? hy h
  obtain ⟨z, hz⟩ : ∃ z, floorMod? x y = some z := ⟨_, floorMod?_eq_some_iff.2 ⟨q, r, hdiv, rfl⟩⟩
  rw [hz, ← toInt_floorMod? hz]
  exact isExact_int z

theorem isExact_intPower? {m n : Int} (hn : 0 ≤ n) (h : ¬(2 ^ 32 ≤ n ∧ m.natAbs < 2)) :
    IsExact (some (m ^ n.toNat)) (intPower? m n) := by
  by_cases hbound : n < 2 ^ 32
  · rw [intPower?_eq hn hbound]
    exact isExact_ofInt? _
  · rw [intPower?_eq_none (by omega)]
    exact isExact_of_not_fits (not_fits_pow (by omega) (by omega))

/-- Outside the two exceptions every operation gives the exact result where it fits. -/
theorem isExact_binary? {op : BinOp} (hop : op.StaysInteger y.toInt) (h : ¬op.FallsShort x y) :
    IsExact (op.result? x.toInt y.toInt) (binary? op (.int x) (.int y)) := by
  cases op with
  | add => exact isExact_ofInt? _
  | sub => exact isExact_ofInt? _
  | mul => exact isExact_ofInt? _
  | div => exact absurd hop id
  | intDiv => exact isExact_floorDiv? x y
  | mod => exact isExact_floorMod? fun hleast => h (.inl ⟨rfl, hleast⟩)
  | pow =>
    have hn : 0 ≤ y.toInt := hop
    have hy : ¬y < 0 := by
      rw [toInt_neg_iff]
      omega
    have hvalue : binary? .pow (.int x) (.int y) = intPower? x.toInt y.toInt := by
      simp only [binary?, intBinary?, if_neg hy, Option.getD_some]
    rw [hvalue, BinOp.result?, if_neg (by omega)]
    exact isExact_intPower? hn fun hbig => h (.inr ⟨rfl, hbig⟩)

/-- In the two exceptions there is no value, and an exact result that fits. -/
theorem binary?_of_fallsShort {op : BinOp} (h : op.FallsShort x y) :
    binary? op (.int x) (.int y) = none ∧ ∃ m, op.result? x.toInt y.toInt = some m ∧ Fits m := by
  rcases h with ⟨rfl, rfl, rfl⟩ | ⟨rfl, hy, hx⟩
  · refine ⟨rfl, 0, ?_, by decide, by decide⟩
    rw [BinOp.result?, if_neg (by decide), floor_div _ (by decide)]
    rfl
  · have hneg : ¬y < 0 := by
      rw [toInt_neg_iff]
      omega
    refine ⟨?_, x.toInt ^ y.toInt.toNat, if_neg (by omega), ?_⟩
    · simp only [binary?, intBinary?, if_neg hneg, Option.getD_some]
      exact intPower?_eq_none hy
    · have hpow : (x.toInt ^ y.toInt.toNat).natAbs ≤ 1 := by
        rw [Int.natAbs_pow]
        exact pow_le_one₀ (Nat.zero_le _) (by omega)
      exact ⟨by omega, by omega⟩

end Number

namespace Expr

variable {σ : Substitution} {e l r : Expr} {x y : Int64}

theorem value?_binary (hl : l.value? σ = some (.int x)) (hr : r.value? σ = some (.int y))
    (op : BinOp) : (binary op l r).value? σ = Number.binary? op (.int x) (.int y) := by
  rw [value?, hl, hr]
  rfl

theorem value?_intDiv (hl : l.value? σ = some (.int x)) (hr : r.value? σ = some (.int y)) :
    (binary .intDiv l r).value? σ = (Number.floorDiv? x y).map .int := value?_binary hl hr .intDiv

theorem value?_mod (hl : l.value? σ = some (.int x)) (hr : r.value? σ = some (.int y)) :
    (binary .mod l r).value? σ = (Number.floorMod? x y).map .int := value?_binary hl hr .mod

/-- Integer division rounds down, and the remainder makes up for it with the sign of the divisor; the
corrections that this takes are computed without overflow.  Both have a value unless the quotient is
the opposite of the least integer. -/
theorem value?_rounds_down (hl : l.value? σ = some (.int x)) (hr : r.value? σ = some (.int y))
    (hy : y ≠ 0) :
    (∀ q, (binary .intDiv l r).value? σ = some (.int q) →
      q.toInt = ⌊(x.toInt : ℚ) / y.toInt⌋) ∧
    (∀ z, (binary .mod l r).value? σ = some (.int z) →
      x.toInt = y.toInt * ⌊(x.toInt : ℚ) / y.toInt⌋ + z.toInt ∧
        (z = 0 ∨ z.toInt.sign = y.toInt.sign)) ∧
    (∀ q z, Number.euclidean? x y = some (q, z) → y < 0 → z ≠ 0 →
      (q - 1).toInt = q.toInt - 1 ∧ (z + y).toInt = z.toInt + y.toInt) ∧
    (¬(x = Int64.minValue ∧ y = -1) →
      (∃ q, (binary .intDiv l r).value? σ = some (.int q)) ∧
        ∃ z, (binary .mod l r).value? σ = some (.int z)) := by
  rw [value?_intDiv hl hr, value?_mod hl hr]
  simp only [Option.map_eq_some_iff, Number.int.injEq, exists_eq_right]
  refine ⟨fun q hq => Number.toInt_floorDiv? hq, fun z hz => ⟨?_, Number.sign_floorMod? hz⟩,
    fun q z hdiv hneg _ => ?_, fun hleast => ?_⟩
  · rw [Number.toInt_floorMod? hz]
    ring
  · obtain ⟨hq, hz⟩ := Number.corrections_fit hdiv hneg
    exact ⟨Number.toInt_sub hq, Number.toInt_add hz⟩
  · obtain ⟨q, z, hdiv⟩ := Number.exists_euclidean? hy hleast
    exact ⟨⟨_, Number.floorDiv?_eq_some_iff.2 ⟨q, z, hdiv, rfl⟩⟩,
      ⟨_, Number.floorMod?_eq_some_iff.2 ⟨q, z, hdiv, rfl⟩⟩⟩

/-- The least integer by minus three. -/
theorem value?_rounds_down_least :
    let l : Expr := .term (Term.int Int64.minValue)
    let r : Expr := .term (Term.int (-3))
    (-3 : Int64) ≠ 0 ∧
    (binary .intDiv l r).value? Substitution.empty = some (.int 3074457345618258602) ∧
    (binary .mod l r).value? Substitution.empty = some (.int (-2)) ∧
    (3074457345618258602 : Int) = ⌊((Int64.minValue.toInt : ℚ) / (-3 : Int64).toInt)⌋ ∧
    Int64.minValue.toInt = (-3 : Int64).toInt *
      ⌊((Int64.minValue.toInt : ℚ) / (-3 : Int64).toInt)⌋ + (-2 : Int64).toInt ∧
    (-2 : Int64).toInt.sign = (-3 : Int64).toInt.sign := by
  intro l r
  have hdiv : (binary .intDiv l r).value? Substitution.empty = some (.int 3074457345618258602) := by
    decide +kernel
  have hmod : (binary .mod l r).value? Substitution.empty = some (.int (-2)) := by decide +kernel
  have hdivisor : (-3 : Int64) ≠ 0 := by decide
  obtain ⟨hquotient, hremainder, -, -⟩ :=
    value?_rounds_down (σ := Substitution.empty) (l := l) (r := r) rfl rfl hdivisor
  obtain ⟨hsum, hsign⟩ := hremainder _ hmod
  exact ⟨hdivisor, hdiv, hmod, hquotient _ hdiv, hsum, hsign.resolve_left (by decide)⟩

/-- Where an operation is computed on integers, it has a value just when its exact result exists and
fits, and this is its value, but for the remainder of the least integer by minus one and for powers
of 0, 1 and -1 with exponents of more than 32 bits: there the result fits and no value is given. -/
theorem value?_isExact (σ : Substitution) :
    (∀ (op : BinOp) (l r : Expr) (x y : Int64), l.value? σ = some (.int x) →
      r.value? σ = some (.int y) → op.StaysInteger y.toInt →
      (¬op.FallsShort x y →
        Number.IsExact (op.result? x.toInt y.toInt) ((binary op l r).value? σ)) ∧
      (op.FallsShort x y → (binary op l r).value? σ = none ∧
        ∃ m, op.result? x.toInt y.toInt = some m ∧ Number.Fits m)) ∧
    ∀ (e : Expr) (x : Int64), e.value? σ = some (.int x) →
      Number.IsExact (some (-x.toInt)) ((neg e).value? σ) ∧
        Number.IsExact (some |x.toInt|) ((call .abs e).value? σ) := by
  refine ⟨fun op l r x y hl hr hop => ?_, fun e x he => ⟨?_, ?_⟩⟩
  · rw [value?_binary hl hr]
    exact ⟨Number.isExact_binary? hop, Number.binary?_of_fallsShort⟩
  · rw [value?, he]
    exact Number.isExact_ofInt? _
  · rw [value?, he, Int.abs_eq_natAbs]
    exact Number.isExact_ofInt? _

/-- The remainder of the least integer by minus one is nothing, and every power of one is one, but
neither has a value. -/
theorem value?_falls_short :
    (binary .mod (.term (Term.int Int64.minValue)) (.term (Term.int (-1)))).value?
      Substitution.empty = none ∧
    BinOp.result? .mod Int64.minValue.toInt (-1 : Int64).toInt = some 0 ∧
    (binary .pow (.term (Term.int 1)) (.term (Term.int 4294967296))).value?
      Substitution.empty = none ∧
    BinOp.result? .pow (1 : Int64).toInt (4294967296 : Int64).toInt = some 1 := by
  have hpow : (1 : Int64).toInt ^ (4294967296 : Int64).toInt.toNat = 1 := one_pow _
  refine ⟨by decide +kernel, ?_, by decide +kernel, ?_⟩
  · rw [BinOp.result?, if_neg (by decide), Number.floor_div _ (by decide)]
    rfl
  · rw [BinOp.result?, if_neg (by decide), hpow]

/-- The least integer by minus one, and its opposite: neither the quotient nor the opposite fits, and
the remainder is not given. -/
theorem value?_isExact_least :
    let l : Expr := .term (Term.int Int64.minValue)
    let r : Expr := .term (Term.int (-1))
    BinOp.StaysInteger .intDiv (-1 : Int64).toInt ∧
    ¬BinOp.FallsShort .intDiv Int64.minValue (-1) ∧ BinOp.FallsShort .mod Int64.minValue (-1) ∧
    Number.IsExact (BinOp.result? .intDiv Int64.minValue.toInt (-1 : Int64).toInt)
      ((binary .intDiv l r).value? Substitution.empty) ∧
    (binary .mod l r).value? Substitution.empty = none ∧
    Number.IsExact (some (-Int64.minValue.toInt)) ((neg l).value? Substitution.empty) := by
  intro l r
  have hshort : ¬BinOp.FallsShort .intDiv Int64.minValue (-1) := by simp [BinOp.FallsShort]
  have hmod : BinOp.FallsShort .mod Int64.minValue (-1) := .inl ⟨rfl, rfl, rfl⟩
  obtain ⟨hbinary, hunary⟩ := value?_isExact Substitution.empty
  exact ⟨trivial, hshort, hmod, (hbinary .intDiv l r _ _ rfl rfl trivial).1 hshort,
    ((hbinary .mod l r _ _ rfl rfl trivial).2 hmod).1, (hunary l _ rfl).1⟩

end Expr
end Horn

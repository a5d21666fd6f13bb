import Horn.Number.Decimal

/-!
The shortest decimal that reads back as a given double.  Every real number in an interval around
the double rounds to it; the answer is the coarsest decimal grid with a point in that interval,
and on that grid the point nearest to the double.  If any point of a grid lies in the interval,
one of the double's two neighbours on the grid does, so two tests per grid are enough.
-/

namespace Horn
namespace Double

/-- The reals that round to a double: all over one denominator, in quarters of the significand's
unit.  The ends belong to it when the significand is even. -/
structure RoundingInterval where
  low : Nat
  value : Nat
  high : Nat
  den : Nat
  closed : Bool

/-- Below a power of two the neighbour is only half as far away. -/
def roundingInterval (x : Double) : RoundingInterval :=
  let m := x.significand
  let q := x.exponent - 2
  let below := if m = 1 <<< 52 ∧ -1074 < x.exponent then 1 else 2
  let (up, down) := if 0 ≤ q then (Nat.pow 2 q.toNat, 1) else (1, Nat.pow 2 (-q).toNat)
  { low := (4 * m - below) * up
    value := 4 * m * up
    high := (4 * m + 2) * up
    den := down
    closed := m % 2 == 0 }

/-- The exponent of ten of the leading digit of `num / den`. -/
def leadingPlace (num den : Nat) : Int :=
  if den ≤ num then (Decimal.digitCount (num / den) : Int) - 1
  else -(Decimal.digitCount ((den - 1) / num) : Int)

/-- The point of the grid with unit `10 ^ place` that stands for the interval's value, if the grid
has one inside the interval.  Of two candidates the nearer counts, and a tie goes up. -/
def gridPoint? (i : RoundingInterval) (place : Int) : Option Decimal :=
  let (up, down) := if 0 ≤ place then (Nat.pow 10 place.toNat, 1) else (1, Nat.pow 10 (-place).toNat)
  let unit := i.den * up
  let floor := i.value * down / unit
  let inside (d : Nat) : Bool :=
    if i.closed then i.low * down ≤ d * unit && d * unit ≤ i.high * down
    else i.low * down < d * unit && d * unit < i.high * down
  let nearerBelow := 2 * i.value * down < (2 * floor + 1) * unit
  if inside floor && (nearerBelow || !inside (floor + 1)) then some ⟨floor, place⟩
  else if inside (floor + 1) then some ⟨floor + 1, place⟩
  else none

/-- The shortest decimal for the absolute value of a finite double other than zero.  Seventeen
digits always tell two doubles apart, so one of the grids has a point. -/
def shortest (x : Double) : Decimal :=
  let i := x.roundingInterval
  let top := leadingPlace i.value i.den
  ((List.range 17).findSome? fun (n : Nat) => gridPoint? i (top - n)).getD ⟨0, 0⟩

end Double
end Horn

/-!
The natural logarithm of one plus a number.  Adding one first would lose the last digits of a small
number, so the sum is split into a power of two and a fraction near one, what its rounding lost is
carried along, and the logarithm of the fraction is a polynomial.
-/

namespace Horn
namespace Logarithm

/-- The logarithm of two, up to the digits that a multiple of it may have. -/
def twoHigh : Float := .ofBits 0x3fe62e42fee00000

/-- What is left of the logarithm of two. -/
def twoLow : Float := .ofBits 0x3dea39ef35793c76

/-- A number `2 ^ exponent * (1 + fraction)` with `1 + fraction` between the root of a half and the
root of two. -/
structure Split where
  exponent : Int
  fraction : Float
  /-- What rounding took from the number, relative to it. -/
  lost : Float
  /-- Whether the fraction is so small that a quadratic gives its logarithm. -/
  isNearOne : Bool

namespace Split

/-- Splits a positive number.  A significand above the root of two is halved. -/
def ofPositive (u lost : Float) : Split :=
  let exponent : Int := (u.toBits >>> 52).toNat - 1023
  let significand := Float.ofBits (u.toBits &&& 0xfffffffffffff ||| 0x3ff0000000000000)
  if significand < .ofBits 0x3ff6a09e00000000 then
    ⟨exponent, significand - 1, lost, significand < .ofBits 0x3ff0000100000000⟩
  else
    ⟨exponent + 1, 0.5 * significand - 1, lost, .ofBits 0x3fffffffd0000000 ≤ significand⟩

/-- Splits one plus a number.  From `2 ^ 53` on the one does not count. -/
def ofOnePlus (x : Float) : Split :=
  if x < 9007199254740992 then
    let u := 1 + x
    let s := ofPositive u 0
    let rest := if 2 ≤ u then 1 - (u - x) else x - (u - 1)
    { s with lost := rest / u }
  else ofPositive x 0

/-- Half the square of the fraction and what joins it: the logarithm of one plus the fraction is the
fraction less the first and plus the second. -/
def terms (s : Split) : Float × Float :=
  let f := s.fraction
  let half := 0.5 * f * f
  if s.isNearOne then (half * (1 - .ofBits 0x3fe5555555555555 * f), 0)
  else
    let r := f / (2 + f)
    let z := r * r
    let z2 := z * z
    let z4 := z2 * z2
    let low := z * .ofBits 0x3fe5555555555593
    let second := .ofBits 0x3fd999999997fa04 + z * .ofBits 0x3fd2492494229359
    let fourth := .ofBits 0x3fcc71c51d8e78af + z * .ofBits 0x3fc7466496cb03de
    let sixth := .ofBits 0x3fc39a09d078c69f + z * .ofBits 0x3fc2f112df3e5244
    (half, r * (half + (low + z2 * second + z4 * fourth + z4 * z2 * sixth)))

/-- The logarithm of the number that was split. -/
def log (s : Split) : Float :=
  let (half, more) := s.terms
  if s.exponent = 0 then s.fraction - (half - more)
  else
    let k := Float.ofInt s.exponent
    k * twoHigh - (half - (more + (k * twoLow + s.lost)) - s.fraction)

end Split

/-- The logarithm of one plus a number. -/
def onePlus (x : Float) : Float :=
  if x.isNaN then x
  else if x < -1 then 0 / 0
  else if x == -1 then -1 / 0
  else if x.isInf then x
  else if x.abs < .ofBits 0x3c90000000000000 then x
  else if x.abs < .ofBits 0x3e20000000000000 then x - x * x * 0.5
  else if .ofBits 0xbfd2bec400000000 < x && x < .ofBits 0x3fda827a00000000 then
    Split.log ⟨0, x, 0, false⟩
  else (Split.ofOnePlus x).log

end Logarithm
end Horn

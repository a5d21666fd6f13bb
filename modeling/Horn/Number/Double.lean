/-!
IEEE 754 double precision numbers as the words that hold them.  Working with the word makes
equality decidable and keeps the two zeros apart, which is how terms compare numbers; arithmetic
goes through the machine's own operations.
-/

namespace Horn

/-- A double precision number, identified by its 64 bits. -/
structure Double where
  bits : UInt64
deriving DecidableEq, Hashable, Inhabited

namespace Double

def ofFloat (x : Float) : Double := ⟨x.toBits⟩

def toFloat (x : Double) : Float := Float.ofBits x.bits

/-- The sign bit. -/
def isNegative (x : Double) : Bool := 1 <<< 63 ≤ x.bits.toNat

/-- The word without its sign bit. -/
def magnitude (x : Double) : Nat := x.bits.toNat % (1 <<< 63)

/-- The magnitude of the infinities; larger ones are not numbers. -/
def infinityMagnitude : Nat := 0x7ff <<< 52

def isNaN (x : Double) : Bool := infinityMagnitude < x.magnitude

def isInfinite (x : Double) : Bool := x.magnitude == infinityMagnitude

def infinity : Double := ⟨0x7ff0000000000000⟩

def nan : Double := ⟨0x7ff8000000000000⟩

/-- Flips the sign bit, also of zeros and of values that are not numbers. -/
def neg (x : Double) : Double := ⟨x.bits ^^^ 0x8000000000000000⟩

/-- Clears the sign bit. -/
def abs (x : Double) : Double := ⟨x.bits &&& 0x7fffffffffffffff⟩

/-- A finite magnitude is `m * 2 ^ q` for the significand `m` and the exponent `q` given here. -/
def significand (x : Double) : Nat :=
  if x.magnitude < 1 <<< 52 then x.magnitude else x.magnitude % (1 <<< 52) + 1 <<< 52

def exponent (x : Double) : Int :=
  if x.magnitude < 1 <<< 52 then -1074 else (x.magnitude >>> 52 : Nat) - 1075

/-- The quotient rounded to the nearest integer, a half to the even neighbour. -/
def roundHalfEven (num den : Nat) : Nat :=
  let q := num / den
  let r := num % den
  if 2 * r < den then q
  else if den < 2 * r then q + 1
  else q + q % 2

/-- Numerator and denominator of `num / den / 2 ^ u`. -/
def scaled (num den : Nat) (u : Int) : Nat × Nat :=
  if u ≤ 0 then (num <<< (-u).toNat, den) else (num, den <<< u.toNat)

/-- The double nearest to `num / den`, a tie going to the even significand.  The unit `2 ^ u` is
chosen so that the quotient has at most 53 bits; adding the scaled exponent to the rounded quotient
gives the word, with the carry of a rounding to the next power of two included. -/
def nearest (num den : Nat) : Double :=
  let estimate : Int := (num.log2 : Int) - den.log2
  let low := max (estimate - 53) (-1074)
  let trial := scaled num den low
  let u := if trial.1 / trial.2 < 1 <<< 53 then low else low + 1
  let final := scaled num den u
  let word := roundHalfEven final.1 final.2 + (u + 1074).toNat <<< 52
  ⟨UInt64.ofNat (min word infinityMagnitude)⟩

/-- The double nearest to an integer. -/
def ofInt (n : Int) : Double :=
  if n = 0 then ⟨0⟩
  else
    let x := nearest n.natAbs 1
    if n < 0 then x.neg else x

def isLess (x y : Double) : Bool := x.toFloat < y.toFloat

/-- Numeric equality: the zeros are equal, and nothing equals a value that is not a number. -/
def isEqual (x y : Double) : Bool := x.toFloat == y.toFloat

end Double
end Horn

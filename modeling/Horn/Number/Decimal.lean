import Horn.Number.Double

/-!
Reading decimal text as a double.  A decimal is an exact number, so reading is one correctly
rounded division.
-/

namespace Horn

/-- The exact number `coefficient * 10 ^ exponent`. -/
structure Decimal where
  coefficient : Nat
  exponent : Int
deriving DecidableEq, Inhabited

namespace Decimal

def digitValue (c : Char) : Nat := c.toNat - '0'.toNat

/-- The number that a run of decimal digits denotes. -/
def ofDigits (digits : List Char) : Nat :=
  digits.foldl (fun n c => 10 * n + digitValue c) 0

/-- How many digits a number has in base ten; zero has one. -/
def digitCount (n : Nat) : Nat := (Nat.toDigits 10 n).length

/-- The number written `whole.fraction` times ten to `exponent`. -/
def ofParts (whole fraction : List Char) (exponent : Int) : Decimal :=
  ⟨ofDigits (whole ++ fraction), exponent - fraction.length⟩

/-- The nearest double.  Beyond ten to the 310 every decimal is infinite and below ten to the
minus 330 every decimal is zero, so neither needs the division. -/
def toDouble (d : Decimal) : Double :=
  if d.coefficient = 0 then ⟨0⟩
  else
    let top := d.exponent + digitCount d.coefficient
    if 310 < top then Double.infinity
    else if top < -330 then ⟨0⟩
    else if 0 ≤ d.exponent then Double.nearest (d.coefficient * Nat.pow 10 d.exponent.toNat) 1
    else Double.nearest d.coefficient (Nat.pow 10 (-d.exponent).toNat)

/-- Splits a leading run of decimal digits off. -/
def spanDigits (cs : List Char) : List Char × List Char :=
  (cs.takeWhile Char.isDigit, cs.dropWhile Char.isDigit)

/-- Splits a sign off and tells whether it was a minus. -/
def splitSign : List Char → Bool × List Char
  | '-' :: rest => (true, rest)
  | '+' :: rest => (false, rest)
  | rest => (false, rest)

/-- The integer with the given digits and sign. -/
def signed (negative : Bool) (digits : List Char) : Int :=
  if negative then -(ofDigits digits : Int) else ofDigits digits

/-- Reads a signed run of digits, all of it. -/
def exponent? (cs : List Char) : Option Int :=
  let (negative, digits) := splitSign cs
  if digits.isEmpty || !digits.all Char.isDigit then none else some (signed negative digits)

/-- Reads an unsigned decimal: digits with an optional point and an optional power of ten. -/
def ofText? (cs : List Char) : Option Decimal :=
  let (whole, afterWhole) := spanDigits cs
  let (fraction, afterFraction) := match afterWhole with
    | '.' :: rest => spanDigits rest
    | rest => ([], rest)
  if whole.isEmpty && fraction.isEmpty then none
  else match afterFraction with
    | [] => some (ofParts whole fraction 0)
    | c :: rest => if c == 'e' || c == 'E' then (exponent? rest).map (ofParts whole fraction) else none

end Decimal

namespace Double

/-- Reads a number, an infinity or `NaN`, with an optional sign. -/
def ofText? (s : String) : Option Double :=
  let (negative, body) := Decimal.splitSign s.toList
  let value : Option Double :=
    if body == "inf".toList then some infinity
    else if body == "NaN".toList then some nan
    else (Decimal.ofText? body).map Decimal.toDouble
  value.map fun x => if negative then x.neg else x

end Double
end Horn

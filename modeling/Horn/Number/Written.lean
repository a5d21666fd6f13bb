import Horn.Number.Shortest

/-!
The two written forms of a double.  Both use the shortest digits that read back; they differ in
when they turn to powers of ten and in how they show a whole number.
-/

namespace Horn
namespace Double

/-- How a double is written: which positions of the decimal point are written out, and what
follows the digits of a whole number. -/
structure WrittenForm where
  positional : Int → Bool
  wholeMark : String

/-- The form of numbers in program text: from a ten thousandth up to ten to the 16 the digits are
written out with at least one after the point. -/
def sourceForm : WrittenForm :=
  { positional := fun point => -3 ≤ point && point ≤ 16, wholeMark := ".0" }

/-- The form of option values: always written out, whole numbers without a point. -/
def plainForm : WrittenForm :=
  { positional := fun _ => true, wholeMark := "" }

def zeros (n : Nat) : List Char := List.replicate n '0'

/-- Drops the zeros at the end of a run of digits. -/
def dropTrailingZeros (digits : List Char) : List Char :=
  (digits.reverse.dropWhile (· == '0')).reverse

/-- Writes the digits of `0.digits` times ten to `point`. -/
def WrittenForm.write (form : WrittenForm) (digits : List Char) (point : Int) : String :=
  if form.positional point then
    if point ≤ 0 then "0." ++ String.ofList (zeros (-point).toNat ++ digits)
    else if digits.length ≤ point.toNat then
      String.ofList (digits ++ zeros (point.toNat - digits.length)) ++ form.wholeMark
    else String.ofList (digits.take point.toNat) ++ "." ++ String.ofList (digits.drop point.toNat)
  else
    let fraction := digits.drop 1
    let mantissa := String.ofList (digits.take 1) ++
      (if fraction.isEmpty then "" else "." ++ String.ofList fraction)
    mantissa ++ "e" ++ toString (point - 1)

/-- The text of a double in a written form. -/
def written (form : WrittenForm) (x : Double) : String :=
  if x.isNaN then "NaN"
  else
    let sign := if x.isNegative then "-" else ""
    if x.isInfinite then sign ++ "inf"
    else if x.magnitude = 0 then sign ++ "0" ++ form.wholeMark
    else
      let d := x.shortest
      let digits := Nat.toDigits 10 d.coefficient
      sign ++ form.write (dropTrailingZeros digits) (digits.length + d.exponent)

/-- The text of a double in program text. -/
def text (x : Double) : String := x.written sourceForm

/-- The text of a double as an option value. -/
def plainText (x : Double) : String := x.written plainForm

end Double
end Horn

import Horn.Number.Logarithm
import Horn.Substitution.Unification

/-!
Arithmetic and the comparisons that goals decide on the spot.  Integers are 64 bits wide and an
operation whose exact result does not fit has no value.  Mixed operands are computed as doubles, and
a result that is not a number is no value either.
-/

namespace Horn

/-- A numeric value. -/
inductive Number where
  | int (n : Int64)
  | float (x : Double)
deriving DecidableEq, Inhabited

namespace Number

/-- The integer, when it fits. -/
def ofInt? (n : Int) : Option Number :=
  if Int64.minValue.toInt ≤ n ∧ n ≤ Int64.maxValue.toInt then some (.int (Int64.ofInt n)) else none

/-- The double, unless it is not a number. -/
def ofFloat? (x : Float) : Option Number := if x.isNaN then none else some (.float (.ofFloat x))

/-- The value as a double; large integers are rounded. -/
def toDouble : Number → Double
  | .int n => Double.ofInt n.toInt
  | .float x => x

def toFloat (a : Number) : Float := a.toDouble.toFloat

def toTerm : Number → Term
  | .int n => Term.int n
  | .float x => Term.float x

def ofTerm? : Term → Option Number
  | .const (.int n) => some (.int n)
  | .const (.float x) => some (.float x)
  | _ => none

/-- The order of two numbers: exact between integers, and none when a side is not a number. -/
def compare? : Number → Number → Option Ordering
  | .int m, .int n => some (compare m.toInt n.toInt)
  | a, b =>
    let x := a.toDouble
    let y := b.toDouble
    if x.isNaN || y.isNaN then none
    else if x.isLess y then some .lt
    else if y.isLess x then some .gt
    else some .eq

/-- Integer powers.  Except for the bases 0, 1 and -1 no power beyond the 63rd fits, so large
exponents need no computation; an exponent has to fit into 32 bits. -/
def intPower? (m n : Int) : Option Number :=
  if UInt32.size ≤ n then none
  else if m.natAbs < 2 then ofInt? (if n = 0 then 1 else m.pow (if n % 2 = 0 then 2 else 1))
  else if 63 < n then none
  else ofInt? (m.pow n.toNat)

/-- The quotient and the remainder of a division whose remainder is never negative.  There are none for
a divisor of zero, nor where the quotient does not fit. -/
def euclidean? (x y : Int64) : Option (Int64 × Int64) :=
  if y = 0 ∨ x = Int64.minValue ∧ y = -1 then none
  else some (Int64.ofInt (x.toInt / y.toInt), Int64.ofInt (x.toInt % y.toInt))

/-- The quotient rounded down.  A quotient whose remainder is not negative is rounded up where a
negative divisor leaves a remainder. -/
def floorDiv? (x y : Int64) : Option Int64 :=
  (euclidean? x y).map fun (q, r) => if y < 0 ∧ r ≠ 0 then q - 1 else q

/-- The remainder with the sign of the divisor. -/
def floorMod? (x y : Int64) : Option Int64 :=
  (euclidean? x y).map fun (_, r) => if y < 0 ∧ r ≠ 0 then r + y else r

/-- Whether a division would be by zero, whatever its sign. -/
def isZero (y : Double) : Bool := y.magnitude == 0

/-- A binary operation on doubles.  Quotients by zero have no value; integer division rounds down
and the remainder has the sign of the divisor. -/
def floatBinary? (op : BinOp) (a b : Double) : Option Number :=
  let x := a.toFloat
  let y := b.toFloat
  match op with
  | .add => ofFloat? (x + y)
  | .sub => ofFloat? (x - y)
  | .mul => ofFloat? (x * y)
  | .div => if isZero b then none else ofFloat? (x / y)
  | .intDiv => if isZero b then none else ofFloat? (x / y).floor
  | .mod => if isZero b then none else ofFloat? (x - y * (x / y).floor)
  | .pow => ofFloat? (x ^ y)

/-- A binary operation on integers, when it has an integer value or none at all.  A quotient that is
not whole or does not fit and a power with a negative exponent are left to the doubles. -/
def intBinary? (op : BinOp) (x y : Int64) : Option (Option Number) :=
  match op with
  | .add => some (ofInt? (x.toInt + y.toInt))
  | .sub => some (ofInt? (x.toInt - y.toInt))
  | .mul => some (ofInt? (x.toInt * y.toInt))
  | .div =>
    if y = 0 then some none
    else (euclidean? x y).bind fun (q, r) => if r = 0 then some (some (.int q)) else none
  | .intDiv => some ((floorDiv? x y).map .int)
  | .mod => some ((floorMod? x y).map .int)
  | .pow => if y < 0 then none else some (intPower? x.toInt y.toInt)

def binary? (op : BinOp) (a b : Number) : Option Number :=
  let mixed := floatBinary? op a.toDouble b.toDouble
  match a, b with
  | .int x, .int y => (intBinary? op x y).getD mixed
  | _, _ => mixed

/-- The inverse hyperbolic tangent by its logarithm.  Near minus one it has fewer exact digits than
near one. -/
def atanh (x : Float) : Float := 0.5 * Logarithm.onePlus (2 * x / (1 - x))

def floatCall (f : MathFn) (x : Float) : Float :=
  match f with
  | .sin => x.sin
  | .cos => x.cos
  | .tan => x.tan
  | .asin => x.asin
  | .acos => x.acos
  | .atan => x.atan
  | .sinh => x.sinh
  | .cosh => x.cosh
  | .tanh => x.tanh
  | .asinh => x.asinh
  | .acosh => x.acosh
  | .atanh => atanh x
  | .sqrt => x.sqrt
  | .exp => x.exp
  | .log => x.log
  | .abs => x.abs

def call? (f : MathFn) (a : Number) : Option Number :=
  match f, a with
  | .abs, .int n => ofInt? n.toInt.natAbs
  | f, a => ofFloat? (floatCall f a.toFloat)

/-- The opposite of a number.  The opposite of a value that is not a number is again none such, and
it is kept. -/
def neg? : Number → Option Number
  | .int n => ofInt? (-n.toInt)
  | .float x => some (.float x.neg)

end Number

namespace Expr

/-- The value of an expression under a substitution, if every leaf is a number and every operation
has a value. -/
def value? (σ : Substitution) : Expr → Option Number
  | .term t => Number.ofTerm? (σ.apply t)
  | .neg e => (e.value? σ).bind Number.neg?
  | .binary op l r => do Number.binary? op (← l.value? σ) (← r.value? σ)
  | .call f e => (e.value? σ).bind (Number.call? f)

end Expr

namespace CompareOp

/-- What an arithmetic comparison asks of the order of its sides. -/
def admits : CompareOp → Ordering → Bool
  | .arithEq, o => o == .eq
  | .arithNe, o => o != .eq
  | .less, o => o == .lt
  | .lessEq, o => o != .gt
  | .greater, o => o == .gt
  | .greaterEq, o => o != .lt
  | .before, o => o == .lt
  | .beforeEq, o => o != .gt
  | .after, o => o == .gt
  | .afterEq, o => o != .lt
  | _, _ => false

end CompareOp

namespace Comparison

/-- Decides a comparison of numeric values. -/
def holdsArithmetic (c : Comparison) (σ : Substitution) : Bool :=
  match c.left.value? σ, c.right.value? σ with
  | some a, some b => (a.compare? b).any c.op.admits
  | _, _ => false

/-- Evaluates the right side.  A number on the left has to be equal to it, anything else is unified
with it. -/
def evaluated? (c : Comparison) (σ : Substitution) : Option Substitution := do
  let target ← c.left.asTerm
  let value ← c.right.value? σ
  match Number.ofTerm? (σ.apply target) with
  | some a => if a.compare? value == some .eq then some σ else none
  | none => (σ.unify (σ.apply target) value.toTerm).toOption

/-- Decides a comparison of terms.  The standard order is that of the texts. -/
def structural? (op : CompareOp) (s t : Term) (σ : Substitution) : Option Substitution :=
  match op with
  | .unify => (σ.unify s t).toOption
  | .notUnify => if (σ.unify s t).toOption.isNone then some σ else none
  | .identical => if σ.apply s = σ.apply t then some σ else none
  | .notIdentical => if σ.apply s ≠ σ.apply t then some σ else none
  | op =>
    if op.admits (compare (σ.apply s).text (σ.apply t).text) then some σ else none

/-- The substitution after a comparison that holds.  Only unification and evaluation can bind. -/
def solution? (c : Comparison) (σ : Substitution) : Option Substitution :=
  match c.op.kind with
  | .arithmetic => if c.holdsArithmetic σ then some σ else none
  | .evaluation => c.evaluated? σ
  | .unification => do structural? c.op (← c.left.asTerm) (← c.right.asTerm) σ

end Comparison
end Horn

import Horn.Term.Printed
import Horn.Term.Traversal

/-!
Arithmetic expressions over terms, and their text.  Parentheses are written only where the text
would otherwise be read back with another grouping.
-/

namespace Horn

/-- A binary arithmetic operator. -/
inductive BinOp where
  | add
  | sub
  | mul
  | div
  | intDiv
  | mod
  | pow
deriving DecidableEq, Hashable, Inhabited

namespace BinOp

def symbol : BinOp → String
  | .add => "+"
  | .sub => "-"
  | .mul => "*"
  | .div => "/"
  | .intDiv => "//"
  | .mod => "mod"
  | .pow => "**"

/-- Operators with a larger precedence bind tighter. -/
def precedence : BinOp → Nat
  | .add | .sub => 1
  | .mul | .div | .intDiv | .mod => 2
  | .pow => 3

/-- The least precedence that the operands may have without parentheses.  Powers group to the
right, every other operator to the left. -/
def operandPrecedence (op : BinOp) : Nat × Nat :=
  match op with
  | .pow => (op.precedence + 1, op.precedence)
  | _ => (op.precedence, op.precedence + 1)

end BinOp

/-- A unary arithmetic function. -/
inductive MathFn where
  | sin
  | cos
  | tan
  | asin
  | acos
  | atan
  | sinh
  | cosh
  | tanh
  | asinh
  | acosh
  | atanh
  | sqrt
  | exp
  | log
  | abs
deriving DecidableEq, Hashable, Inhabited

namespace MathFn

def all : List MathFn :=
  [.sin, .cos, .tan, .asin, .acos, .atan, .sinh, .cosh, .tanh, .asinh, .acosh, .atanh, .sqrt,
    .exp, .log, .abs]

def name : MathFn → String
  | .sin => "sin"
  | .cos => "cos"
  | .tan => "tan"
  | .asin => "asin"
  | .acos => "acos"
  | .atan => "atan"
  | .sinh => "sinh"
  | .cosh => "cosh"
  | .tanh => "tanh"
  | .asinh => "asinh"
  | .acosh => "acosh"
  | .atanh => "atanh"
  | .sqrt => "sqrt"
  | .exp => "exp"
  | .log => "log"
  | .abs => "abs"

def ofName? (s : String) : Option MathFn := all.find? fun f => f.name == s

theorem ofName?_name (f : MathFn) : ofName? f.name = some f := by
  cases f <;> decide

end MathFn

/-- An arithmetic expression whose leaves are terms. -/
inductive Expr where
  | term (t : Term)
  | binary (op : BinOp) (left right : Expr)
  | neg (e : Expr)
  | call (f : MathFn) (arg : Expr)
deriving DecidableEq, Hashable, Inhabited

namespace Expr

def asTerm : Expr → Option Term
  | .term t => some t
  | _ => none

/-- Whether the text of an expression needs parentheses as an operand. -/
def needsParens (e : Expr) (least : Nat) : Bool :=
  match e with
  | .binary op _ _ => op.precedence < least
  | _ => false

def parenthesised (needed : Bool) (s : String) : String :=
  if needed then "(" ++ s ++ ")" else s

def text : Expr → String
  | .term t => t.text
  | .binary op l r =>
    let least := op.operandPrecedence
    parenthesised (l.needsParens least.1) l.text ++ " " ++ op.symbol ++ " " ++
      parenthesised (r.needsParens least.2) r.text
  | .neg e => "-(" ++ e.text ++ ")"
  | .call f e => f.name ++ "(" ++ e.text ++ ")"

def subterms : Expr → List Term
  | .term t => t.subterms
  | .binary _ l r => l.subterms ++ r.subterms
  | .neg e => e.subterms
  | .call _ e => e.subterms

def rewrite (f : Term → Option Term) : Expr → Expr
  | .term t => .term (t.rewrite f)
  | .binary op l r => .binary op (l.rewrite f) (r.rewrite f)
  | .neg e => .neg (e.rewrite f)
  | .call m e => .call m (e.rewrite f)

end Expr

instance : HasTerms Expr := ⟨Expr.subterms, Expr.rewrite⟩

end Horn
